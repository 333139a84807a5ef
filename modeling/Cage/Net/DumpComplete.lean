import Cage.Net.DumpRead
import Cage.Util.Decimal
import Mathlib.Algebra.GroupWithZero.Nat

/-!
When the lists of links that the program reads are complete: what
`netlink_dump_find_ifname` and `netlink_alloc_veth_id` return against the links of
the host.
-/

namespace Cage.Net

open Util

/-- The links among the entries. -/
def linksOf (es : List Entry) : List Link :=
  es.filterMap fun e =>
    match e with
    | .link l => some l
    | .done .. => none

theorem linksOf_map (ls : List Link) (es : List Entry) :
    linksOf (ls.map .link ++ es) = ls ++ linksOf es := by
  induction ls with
  | nil => rfl
  | cons l ls ih => exact congrArg (l :: ·) ih

theorem linksOf_bytes (es : List Entry) :
    (linkBytes (linksOf es)).length ≤ (entryBytes es).length := by
  induction es with
  | nil => exact Nat.le_refl _
  | cons e es ih =>
    have hcons : (entryBytes (e :: es)).length = e.msg.bytes.length + (entryBytes es).length := by
      simp [entryBytes]
    cases e with
    | link l =>
      have hlinks : (linkBytes (linksOf (.link l :: es))).length =
          l.msg.bytes.length + (linkBytes (linksOf es)).length := by
        simp [linkBytes, entryBytes, linksOf, Entry.msg]
      rw [hcons, hlinks]
      exact Nat.add_le_add_left ih _
    | done m h =>
      rw [hcons]
      exact Nat.le_trans ih (Nat.le_add_left _ _)

theorem visible_bytes (k : Nat) (es : List Entry) : (entryBytes (visible k es)).length ≤ k := by
  induction es generalizing k with
  | nil => exact Nat.zero_le k
  | cons e es ih =>
    unfold visible
    split
    · rename_i hfit
      have hrest := ih (k - e.msg.bytes.length)
      have hcons : (entryBytes (e :: visible (k - e.msg.bytes.length) es)).length =
          e.msg.bytes.length + (entryBytes (visible (k - e.msg.bytes.length) es)).length := by
        simp [entryBytes]
      omega
    · exact Nat.zero_le k

theorem runAll_findStep (name : CStr) (es : List Entry) :
    runAll (findStep name) es none =
      ((linksOf es).find? fun l => l.name = name).map fun l => l.index.toNat := by
  induction es with
  | nil => rfl
  | cons e es ih =>
    cases e with
    | link l =>
      have hlinks : linksOf (.link l :: es) = l :: linksOf es := rfl
      rw [runAll, findStep, hlinks, List.find?_cons]
      by_cases hname : l.name = name
      · simp [hname]
      · simp [hname, ih]
    | done m h => exact ih

theorem runAll_usedStep (pre : CStr) (es : List Entry) (used : Used) (i : Nat) :
    runAll (usedStep pre) es used i = true ↔
      used i = true ∨ i ≤ cageVethMaxId ∧ ∃ l ∈ linksOf es, vethId l.name pre = i := by
  induction es generalizing used with
  | nil => simp [runAll, linksOf]
  | cons e es ih =>
    cases e with
    | link l =>
      have hlinks : linksOf (.link l :: es) = l :: linksOf es := rfl
      have hmark : mark (vethId l.name pre) used i = true ↔
          used i = true ∨ i ≤ cageVethMaxId ∧ vethId l.name pre = i := by
        unfold mark
        split
        · rename_i hrange
          by_cases hi : i = (vethId l.name pre).toNat
          · subst hi
            rw [Function.update_self]
            refine ⟨fun _ => Or.inr ⟨by omega, by omega⟩, fun _ => rfl⟩
          · rw [Function.update_of_ne hi]
            refine ⟨Or.inl, ?_⟩
            rintro (h | ⟨-, h⟩)
            · exact h
            · omega
        · refine ⟨Or.inl, ?_⟩
          rintro (h | ⟨hle, h⟩)
          · exact h
          · omega
      rw [runAll, usedStep, if_neg Bool.false_ne_true, ih, hmark, hlinks, List.exists_mem_cons_iff,
        or_assoc]
      constructor
      · rintro (h | ⟨hle, h⟩ | ⟨hle, h⟩)
        · exact Or.inl h
        · exact Or.inr ⟨hle, Or.inl h⟩
        · exact Or.inr ⟨hle, Or.inr h⟩
      · rintro (h | ⟨hle, h | h⟩)
        · exact Or.inl h
        · exact Or.inr (Or.inl ⟨hle, h⟩)
        · exact Or.inr (Or.inr ⟨hle, h⟩)
    | done m h => exact ih used

namespace Dump

variable (d : Dump)

def entries : List Entry := d.links.map .link ++ [.done d.last d.isDone]

theorem entries_bytes :
    linkBytes d.earlier.flatten ++ entryBytes d.finalEntries = entryBytes d.entries := by
  rw [entries, links, List.map_append, List.append_assoc, entryBytes_append]
  rfl

/-- The links that are seen of a list of which only the beginning is kept. -/
def seen (k : Nat) : List Link := linksOf (visible k d.entries)

theorem seen_prefix (k : Nat) : d.seen k <+: d.links := by
  have hall : linksOf d.entries = d.links := by
    rw [entries, linksOf_map]
    exact List.append_nil _
  rw [← hall]
  exact (visible_sublist k d.entries).filterMap _

/-- All links are seen just when their messages fit. -/
theorem seen_all (k : Nat) : d.seen k = d.links ↔ (linkBytes d.links).length ≤ k := by
  constructor
  · intro h
    have hbytes := linksOf_bytes (visible k d.entries)
    rw [← h]
    exact Nat.le_trans hbytes (visible_bytes k d.entries)
  · intro h
    have hvisible : visible k d.entries = d.links.map .link ++ _ := visible_append h
    refine (d.seen_prefix k).eq_of_length_le ?_
    rw [seen, hvisible, linksOf_map, List.length_append]
    exact Nat.le_add_right _ _

end Dump

section Runs

variable {κ : Kernel} {d : Dump}

/-- All links are listed, and the last datagram is taken off the queue. -/
structure Dump.Fits (d : Dump) : Prop where
  links : (linkBytes d.links).length ≤ dumpCap
  final : (linkBytes d.earlier.flatten).length < dumpCap

theorem dumpRequest_type :
    msgType (netlinkRequestFill netlinkRequestLen rtmGetlink nlmFDump 0) = rtmGetlink := by
  decide

theorem netlinkFillDumpLink_fits : netlinkFillDumpLink dumpCap =
    some (netlinkRequestFill netlinkRequestLen rtmGetlink nlmFDump 0) := rfl

/-- `dump_all` on a socket with nothing in its queue. -/
theorem dumpAll_list (hworks : ∀ n, κ.works n = true) {s : Sock} (hqueue : s.queue = [])
    (hdump : κ.dump s.dumps = d.datagrams) :
    ∃ s', dumpAll κ dumpCap s = .ok (some ((entryBytes d.entries).take dumpCap), s') ∧
      (s'.queue = [] ↔ (linkBytes d.earlier.flatten).length < dumpCap) ∧ s'.acked = s.acked ∧
        s'.dumps = s.dumps + 1 := by
  have hanswer : s.tick.answer κ (netlinkRequestFill netlinkRequestLen rtmGetlink nlmFDump 0) =
      { s.tick with queue := d.datagrams, dumps := s.dumps + 1 } := by
    have hempty : s.tick.queue = [] := hqueue
    have hlist : κ.dump s.tick.dumps = d.datagrams := hdump
    rw [Sock.answer, if_pos dumpRequest_type, hempty, hlist]
    rfl
  have hcap : dumpCap < 2 ^ 64 := by decide
  obtain ⟨s', hrun, hleft, hacked, hdumps⟩ := sysNetlinkRecvDump_list hworks hcap d
    (s := { s.tick with queue := d.datagrams, dumps := s.dumps + 1 }) rfl
  refine ⟨s', ?_, hleft, hacked, hdumps⟩
  rw [d.entries_bytes] at hrun
  unfold dumpAll
  rw [netlinkFillDumpLink_fits]
  refine (run_ok (sysNetlinkSend_works hworks _ s)).trans ?_
  rw [if_neg (by decide), hanswer]
  exact hrun

/-- What `netlink_dump_find_ifname` returns. -/
theorem netlinkDumpFindIfname_list (hworks : ∀ n, κ.works n = true) {s : Sock}
    (hqueue : s.queue = []) (hdump : κ.dump s.dumps = d.datagrams) {name : CStr}
    (hname : (0 : UInt8) ∉ name) :
    ∃ s', netlinkDumpFindIfname κ name s =
        .ok (((d.seen dumpCap).find? fun l => l.name = name).map fun l => l.index.toNat, s') ∧
      (s'.queue = [] ↔ (linkBytes d.earlier.flatten).length < dumpCap) ∧ s'.acked = s.acked ∧
        s'.dumps = s.dumps + 1 := by
  obtain ⟨s', hrun, hrest⟩ := dumpAll_list hworks hqueue hdump
  refine ⟨s', ?_, hrest⟩
  refine (run_ok hrun).trans ?_
  refine (parse_ok (netlinkFindIfname_take hname (by decide)) s').trans ?_
  rw [runAll_findStep]
  rfl

/-- Some link's name is the prefix with a spelling of the id. -/
def Spelled (d : Dump) (pre : CStr) (i : Nat) : Prop := ∃ l ∈ d.links, vethId l.name pre = i

/-- What `netlink_alloc_veth_id` returns. -/
theorem netlinkAllocVethId_list (hworks : ∀ n, κ.works n = true) {s : Sock}
    (hqueue : s.queue = []) (hdump : κ.dump s.dumps = d.datagrams) {pre : CStr}
    (hpre : (0 : UInt8) ∉ pre) :
    ∃ r s', netlinkAllocVethId κ pre s = .ok (r, s') ∧
      (∀ i, r = some i ↔ i ≤ cageVethMaxId ∧
        (¬ ∃ l ∈ d.seen dumpCap, vethId l.name pre = i) ∧
          ∀ j, j < i → ∃ l ∈ d.seen dumpCap, vethId l.name pre = j) ∧
      (s'.queue = [] ↔ (linkBytes d.earlier.flatten).length < dumpCap) := by
  obtain ⟨s', hrun, hleft, -⟩ := dumpAll_list hworks hqueue hdump
  have hcap : dumpCap < 2 ^ 64 := by decide
  have hscan : vethScanUsed (((entryBytes d.entries).take dumpCap).length + 1)
      ((entryBytes d.entries).take dumpCap) pre (fun _ => false) = _ :=
    vethScanUsed_take hpre hcap fun _ => false
  have hlowest : netlinkLowestFreeVethId (((entryBytes d.entries).take dumpCap).length + 1)
      ((entryBytes d.entries).take dumpCap) pre =
        .ok ((List.range (cageVethMaxId + 1)).find? fun i =>
          !runAll (usedStep pre) (visible dumpCap d.entries) (fun _ => false) i) := by
    unfold netlinkLowestFreeVethId
    rw [hscan]
    rfl
  refine ⟨_, s', (run_ok hrun).trans (parse_ok hlowest s'), fun i => ?_, hleft⟩
  have hused : ∀ j, j ≤ cageVethMaxId →
      (runAll (usedStep pre) (visible dumpCap d.entries) (fun _ => false) j = true ↔
        ∃ l ∈ d.seen dumpCap, vethId l.name pre = j) := fun j hj => by
    rw [runAll_usedStep]
    simp [hj, Dump.seen]
  rw [List.find?_range_eq_some]
  constructor
  · rintro ⟨hfree, hi, hbelow⟩
    have hle : i ≤ cageVethMaxId := Nat.le_of_lt_succ (List.mem_range.mp hi)
    refine ⟨hle, fun h => ?_, fun j hj => ?_⟩
    · rw [(hused i hle).mpr h] at hfree
      cases hfree
    · exact (hused j (by omega)).mp (by simpa using hbelow j hj)
  · rintro ⟨hle, hfree, hbelow⟩
    refine ⟨?_, List.mem_range.mpr (Nat.lt_succ_of_le hle), fun j hj => ?_⟩
    · simpa using fun h => hfree ((hused i hle).mp h)
    · simpa using (hused j (by omega)).mpr (hbelow j hj)

/-- The name of the veth link with that id. -/
def vethName (pre : CStr) (id : Nat) : CStr := pre ++ intStr id

/-- No link has the id, and every lower id has one. -/
structure LowestFree (d : Dump) (pre : CStr) (id : Nat) : Prop where
  free : ¬ ∃ l ∈ d.links, l.name = vethName pre id
  lower : ∀ j, j < id → ∃ l ∈ d.links, l.name = vethName pre j

/-- `netlink_alloc_veth_id` returns 0 only with the lowest free id, and leaves
nothing in the queue then. -/
def AllocRight (κ : Kernel) (d : Dump) (pre : CStr) (s : Sock) : Prop :=
  ∀ id s', netlinkAllocVethId κ pre s = .ok (some id, s') → LowestFree d pre id ∧ s'.queue = []

/-- `netlink_dump_find_ifname` returns 0 just when there is a link of that name, with
its index, and leaves nothing in the queue then. -/
structure FindRight (κ : Kernel) (d : Dump) (s : Sock) (name : CStr) : Prop where
  found : (∃ i s', netlinkDumpFindIfname κ name s = .ok (some i, s')) ↔
    ∃ l ∈ d.links, l.name = name
  index : ∀ i s', netlinkDumpFindIfname κ name s = .ok (some i, s') →
    (∃ l ∈ d.links, l.name = name ∧ l.index.toNat = i) ∧ s'.queue = []

structure DumpRight (κ : Kernel) (d : Dump) (pre : CStr) (s : Sock) : Prop where
  alloc : AllocRight κ d pre s
  find : ∀ name : CStr, (0 : UInt8) ∉ name → FindRight κ d s name

/-- The lowest free id is spelled by no link in another way, or every id is
spelled. -/
def PlainIds (d : Dump) (pre : CStr) : Prop :=
  ∀ m, LowestFree d pre m → Spelled d pre m → ∀ i, i ≤ cageVethMaxId → Spelled d pre i

/-- The name of a veth link spells its id. -/
theorem vethId_vethName (pre : CStr) {i : Nat} (h : i ≤ cageVethMaxId) :
    vethId (vethName pre i) pre = i := by
  have hmax : cageVethMaxId = 126 := rfl
  have hstrtol : strtol (intStr i) = ((i : Int), []) := strtol_intStr (by omega)
  have hne : intStr i ≠ [] := intStr_ne_nil i
  unfold vethId vethName
  rw [if_pos (List.prefix_append pre _), List.drop_left]
  dsimp only
  rw [hstrtol, if_neg (by simp [Ne.symm hne])]
  unfold intOfLong
  omega

theorem LowestFree.unique {pre : CStr} {i j : Nat} (hi : LowestFree d pre i)
    (hj : LowestFree d pre j) : i = j := by
  rcases Nat.lt_trichotomy i j with hlt | heq | hlt
  · exact absurd (hj.lower i hlt) hi.free
  · exact heq
  · exact absurd (hi.lower j hlt) hj.free

/-- Below an id that no link has, there is a lowest one. -/
theorem exists_lowestFree {pre : CStr} {i : Nat}
    (h : ¬ ∃ l ∈ d.links, l.name = vethName pre i) : ∃ m, m ≤ i ∧ LowestFree d pre m := by
  induction i using Nat.strongRecOn with
  | ind i ih =>
    by_cases hlower : ∀ j, j < i → ∃ l ∈ d.links, l.name = vethName pre j
    · exact ⟨i, Nat.le_refl i, h, hlower⟩
    · obtain ⟨j, hj⟩ := Classical.not_forall.mp hlower
      obtain ⟨hlt, hfree⟩ := Classical.not_imp.mp hj
      obtain ⟨m, hm, hlowest⟩ := ih j hlt hfree
      exact ⟨m, by omega, hlowest⟩

theorem find_some_iff {ls : List Link} {name : CStr} :
    (∃ i, ((ls.find? fun l => l.name = name).map fun l => l.index.toNat) = some i) ↔
      ∃ l ∈ ls, l.name = name := by
  constructor
  · rintro ⟨i, h⟩
    obtain ⟨l, hl, -⟩ := Option.map_eq_some_iff.mp h
    exact ⟨l, List.mem_of_find?_eq_some hl, by simpa using List.find?_some hl⟩
  · rintro ⟨l, hl, hname⟩
    have hsome : (ls.find? fun l => l.name = name).isSome :=
      List.find?_isSome.mpr ⟨l, hl, by simpa using hname⟩
    obtain ⟨l', hl'⟩ := Option.isSome_iff_exists.mp hsome
    exact ⟨l'.index.toNat, by rw [hl']; rfl⟩

section Host

variable {s : Sock} {pre : CStr} (hworks : ∀ n, κ.works n = true) (hqueue : s.queue = [])
  (hdump : κ.dump s.dumps = d.datagrams)

include hworks hqueue hdump

theorem findRight_of_fits (hfits : d.Fits) {name : CStr} (hname : (0 : UInt8) ∉ name) :
    FindRight κ d s name := by
  obtain ⟨s', hrun, hleft, -⟩ := netlinkDumpFindIfname_list hworks hqueue hdump hname
  rw [(d.seen_all dumpCap).mpr hfits.links] at hrun
  constructor
  · rw [← find_some_iff]
    constructor
    · rintro ⟨i, t, h⟩
      exact ⟨i, (Prod.mk.inj (Except.ok.inj (hrun.symm.trans h))).1⟩
    · rintro ⟨i, h⟩
      exact ⟨i, s', hrun.trans (by rw [h])⟩
  · intro i t h
    obtain ⟨hi, ht⟩ := Prod.mk.inj (Except.ok.inj (hrun.symm.trans h))
    obtain ⟨l, hl, hindex⟩ := Option.map_eq_some_iff.mp hi
    refine ⟨⟨l, List.mem_of_find?_eq_some hl, by simpa using List.find?_some hl, hindex⟩, ?_⟩
    rw [← ht]
    exact hleft.mpr hfits.final

/-- A list that is not complete is found out by one of the names. -/
theorem fits_of_findRight (h : ∀ name : CStr, (0 : UInt8) ∉ name → FindRight κ d s name) :
    d.Fits := by
  have hall : d.seen dumpCap = d.links := by
    obtain ⟨more, hmore⟩ := d.seen_prefix dumpCap
    cases more with
    | nil => rw [← hmore, List.append_nil]
    | cons l more =>
      obtain ⟨s', hrun, -⟩ := netlinkDumpFindIfname_list hworks hqueue hdump l.name_ends
      have hl : l ∈ d.links := hmore ▸ List.mem_append_right _ List.mem_cons_self
      obtain ⟨i, t, hfound⟩ := (h l.name l.name_ends).found.mpr ⟨l, hl, rfl⟩
      have hi := (Prod.mk.inj (Except.ok.inj (hrun.symm.trans hfound))).1
      obtain ⟨l', hl', hname⟩ := find_some_iff.mp ⟨i, hi⟩
      have hdistinct := d.distinct
      have hlinks : d.links = d.earlier.flatten ++ d.final := rfl
      rw [← hlinks, ← hmore, List.map_append, List.map_cons] at hdistinct
      have hnot := (List.nodup_append.mp hdistinct).2.2 l'.name (List.mem_map_of_mem hl') l.name
        List.mem_cons_self
      exact absurd hname hnot
  have hlinks := (d.seen_all dumpCap).mp hall
  refine ⟨hlinks, ?_⟩
  by_cases hearlier : d.earlier.flatten = []
  · rw [hearlier]
    decide
  · obtain ⟨l, hl⟩ := List.exists_mem_of_ne_nil _ hearlier
    obtain ⟨s', hrun, hleft, -⟩ := netlinkDumpFindIfname_list hworks hqueue hdump l.name_ends
    obtain ⟨i, t, hfound⟩ := (h l.name l.name_ends).found.mpr ⟨l, List.mem_append_left _ hl, rfl⟩
    have hempty := ((h l.name l.name_ends).index i t hfound).2
    rw [← (Prod.mk.inj (Except.ok.inj (hrun.symm.trans hfound))).2] at hempty
    exact hleft.mp hempty

theorem allocRight_of_fits (hfits : d.Fits) (hplain : PlainIds d pre) (hpre : (0 : UInt8) ∉ pre) :
    AllocRight κ d pre s := by
  intro id t hrun
  obtain ⟨r, s', hrun', hr, hleft⟩ := netlinkAllocVethId_list hworks hqueue hdump hpre
  rw [(d.seen_all dumpCap).mpr hfits.links] at hr
  obtain ⟨rfl, rfl⟩ := Prod.mk.inj (Except.ok.inj (hrun'.symm.trans hrun))
  obtain ⟨hle, hfree, hbelow⟩ := (hr id).mp rfl
  refine ⟨⟨fun ⟨l, hl, hname⟩ => ?_, fun j hj => ?_⟩, hleft.mpr hfits.final⟩
  · exact hfree ⟨l, hl, by rw [hname, vethId_vethName pre hle]⟩
  · -- The lowest id below `id` that no link has would be spelled in another way.
    by_contra hnone
    obtain ⟨m, hm, hlowest⟩ := exists_lowestFree hnone
    exact hfree (hplain m hlowest (hbelow m (by omega)) id hle)

theorem plainIds_of_allocRight (hfits : d.Fits) (hpre : (0 : UInt8) ∉ pre)
    (halloc : AllocRight κ d pre s) : PlainIds d pre := by
  intro m hlowest hspelled i hi
  by_contra hnot
  obtain ⟨r, s', hrun, hr, -⟩ := netlinkAllocVethId_list hworks hqueue hdump hpre
  rw [(d.seen_all dumpCap).mpr hfits.links] at hr
  -- The first id that no link spells is returned, and it is not `m`.
  have hleast : ∃ j, j ≤ i ∧ ¬ Spelled d pre j ∧ ∀ k, k < j → Spelled d pre k := by
    induction i using Nat.strongRecOn with
    | ind i ih =>
      by_cases hbelow : ∀ k, k < i → Spelled d pre k
      · exact ⟨i, Nat.le_refl i, hnot, hbelow⟩
      · obtain ⟨k, hk⟩ := Classical.not_forall.mp hbelow
        obtain ⟨hlt, hk⟩ := Classical.not_imp.mp hk
        obtain ⟨j, hj, hrest⟩ := ih k hlt (by omega) hk
        exact ⟨j, by omega, hrest⟩
  obtain ⟨j, hj, hfree, hbelow⟩ := hleast
  have hsome := (hr j).mpr ⟨by omega, hfree, hbelow⟩
  have hright := (halloc j s' (by rw [hrun, hsome])).1
  rw [hlowest.unique hright] at hspelled
  exact hfree hspelled

theorem dumpRight_iff (hpre : (0 : UInt8) ∉ pre) :
    DumpRight κ d pre s ↔ d.Fits ∧ PlainIds d pre := by
  constructor
  · intro h
    have hfits := fits_of_findRight hworks hqueue hdump h.find
    exact ⟨hfits, plainIds_of_allocRight hworks hqueue hdump hfits hpre h.alloc⟩
  · rintro ⟨hfits, hplain⟩
    exact ⟨allocRight_of_fits hworks hqueue hdump hfits hplain hpre,
      fun name hname => findRight_of_fits hworks hqueue hdump hfits hname⟩

end Host

end Runs

/-- A link with a name and one more attribute, of `pad` zero bytes. -/
def sampleLink (name : CStr) (pad : Nat) (hends : (0 : UInt8) ∉ name) (hname : name.length ≤ 15)
    (hpad : pad ≤ 65000) : Link where
  index := 7
  name := name
  head := List.replicate 10 0
  kind := List.replicate 4 0
  flags := List.replicate 8 0
  before := [⟨23, List.replicate pad 0⟩]
  after := []
  head_length := rfl
  kind_length := rfl
  flags_length := rfl
  name_ends := hends
  others := by
    intro a ha
    rw [List.append_nil, List.mem_singleton] at ha
    subst ha
    have htype : (23 : UInt16).toNat ≠ iflaIfname := by decide
    refine ⟨htype, ?_⟩
    unfold NlAttr.Fits
    rw [List.length_replicate]
    omega
  name_fits := by omega
  small := by
    have hlen := NlAttr.bytes_length ⟨23, List.replicate pad 0⟩
    unfold nlaAlign at hlen
    rw [List.length_replicate] at hlen
    rw [List.append_nil, List.flatMap_singleton, hlen]
    omega

def lastMsg : Msg where
  type := UInt16.ofNat nlmsgDone
  head := List.replicate 10 0
  body := [0, 0, 0, 0]
  head_length := rfl
  aligned := rfl
  small := by decide

/-- The kernel that answers every request, and has these links. -/
def listing (d : Dump) : Kernel :=
  { works := fun _ => true, code := fun _ => 0, dump := fun _ => d.datagrams }

theorem eth0_ends : (0 : UInt8) ∉ lit "eth0" := by decide

theorem eth0_short : (lit "eth0").length ≤ 15 := by decide

theorem unpadded : 0 ≤ 65000 := Nat.zero_le _

def oneDump : Dump where
  earlier := []
  final := [sampleLink (lit "eth0") 0 eth0_ends eth0_short unpadded]
  last := lastMsg
  isDone := rfl
  nonempty := by simp
  distinct := by simp

theorem oneDump_fits : oneDump.Fits := ⟨by decide, by decide⟩

theorem oneDump_plain : PlainIds oneDump (lit "cage-veth") := by
  rintro m - ⟨l, hl, hid⟩ i -
  have heth : l = sampleLink (lit "eth0") 0 (by decide) (by decide) (by decide) :=
    List.mem_singleton.mp hl
  have hno : vethId (lit "eth0") (lit "cage-veth") = -1 := by decide
  rw [heth] at hid
  have hneg : (-1 : Int) = m := hno.symm.trans hid
  omega

theorem dumpRight_iff_one : DumpRight (listing oneDump) oneDump (lit "cage-veth") Sock.fresh :=
  (dumpRight_iff (fun _ => rfl) rfl rfl (by decide)).mpr ⟨oneDump_fits, oneDump_plain⟩

/-- Twelve links, each in a datagram of its own. -/
def hostLink (i : Fin 12) : Link :=
  sampleLink [UInt8.ofNat (97 + i)] 1400 (by revert i; decide) (Nat.succ_le_succ (Nat.zero_le 14))
    (by decide)

def longDump : Dump where
  earlier := (List.finRange 12).map fun i => [hostLink i]
  final := []
  last := lastMsg
  isDone := rfl
  nonempty ls hls := by
    obtain ⟨i, -, rfl⟩ := List.mem_map.mp hls
    exact List.cons_ne_nil _ _
  distinct := by decide

theorem linkBytes_length (ls : List Link) :
    (linkBytes ls).length = (ls.map fun l => l.msg.bytes.length).sum := by
  simp [linkBytes, entryBytes, List.length_flatMap, Entry.msg, Function.comp_def]

theorem hostLink_length (i : Fin 12) : (hostLink i).msg.bytes.length = 1444 := by
  have hbody : (hostLink i).msg.body.length = _ := (hostLink i).body_length
  have hpad : (NlAttr.bytes ⟨23, List.replicate 1400 0⟩).length = 1404 := by
    rw [NlAttr.bytes_length, List.length_replicate]
    rfl
  have hname : (hostLink i).nameAttr.bytes.length = 8 := by
    have hdata : (hostLink i).nameAttr.data.length = 2 := rfl
    rw [NlAttr.bytes_length, hdata]
    rfl
  have hattrs : ((hostLink i).attrs.flatMap NlAttr.bytes).length =
      (NlAttr.bytes ⟨23, List.replicate 1400 0⟩).length + (hostLink i).nameAttr.bytes.length := by
    have hlist : (hostLink i).attrs = [⟨23, List.replicate 1400 0⟩, (hostLink i).nameAttr] := rfl
    rw [hlist, List.flatMap_cons, List.flatMap_singleton, List.length_append]
  rw [Msg.bytes_length, hbody, hattrs, hpad, hname]

theorem longDump_cut : ¬ longDump.Fits := by
  intro h
  have hlen := h.links
  have hlinks : longDump.links = (List.finRange 12).map hostLink := by
    rw [Dump.links, longDump, List.append_nil, ← List.flatMap_def, List.map_eq_flatMap]
  rw [hlinks, linkBytes_length, List.map_map] at hlen
  have hsum : (((List.finRange 12).map ((fun l : Link => l.msg.bytes.length) ∘ hostLink)).sum) =
      17328 := by
    have hfun : (fun l : Link => l.msg.bytes.length) ∘ hostLink = fun _ => 1444 :=
      funext hostLink_length
    rw [hfun]
    rfl
  rw [hsum] at hlen
  exact absurd hlen (by decide)

theorem dumpRight_fails :
    ¬ ∀ (κ : Kernel) (d : Dump) (pre : CStr) (s : Sock), (∀ n, κ.works n = true) → s.queue = [] →
      κ.dump s.dumps = d.datagrams → (0 : UInt8) ∉ pre → DumpRight κ d pre s := by
  intro h
  have hright := h (listing longDump) longDump (lit "cage-veth") Sock.fresh (fun _ => rfl) rfl rfl
    (by decide)
  exact longDump_cut (fits_of_findRight (fun _ => rfl) rfl rfl hright.find)

end Cage.Net
