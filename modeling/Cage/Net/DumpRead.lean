import Cage.Net.LinksRead

/-!
What a receive of the kernel's list leaves in a buffer: its beginning, up to the
size of the buffer. The list is whole when all its links fit, and the queue is empty
when the buffer was not full before the last datagram.
-/

namespace Cage.Net

open Util

section Visible

theorem visible_sublist (k : Nat) (es : List Entry) : visible k es <+: es := by
  induction es generalizing k with
  | nil => exact List.prefix_refl _
  | cons e es ih =>
    unfold visible
    split
    · exact List.cons_prefix_cons.mpr ⟨rfl, ih _⟩
    · exact List.nil_prefix

theorem visible_count (k : Nat) (es : List Entry) :
    (visible k es).length ≤ ((entryBytes es).take k).length := by
  induction es generalizing k with
  | nil => exact Nat.zero_le _
  | cons e es ih =>
    unfold visible
    split
    · rename_i hfit
      have hrest := ih (k - e.msg.bytes.length)
      have hlen := e.msg.bytes_length
      rw [List.length_take] at hrest ⊢
      have hcons : (entryBytes (e :: es)).length = e.msg.bytes.length + (entryBytes es).length := by
        simp [entryBytes]
      rw [List.length_cons, hcons]
      omega
    · exact Nat.zero_le _

theorem visible_all {k : Nat} {es : List Entry} (h : (entryBytes es).length ≤ k) :
    visible k es = es := by
  induction es generalizing k with
  | nil => rfl
  | cons e es ih =>
    have hcons : (entryBytes (e :: es)).length = e.msg.bytes.length + (entryBytes es).length := by
      simp [entryBytes]
    rw [visible, if_pos (by omega), ih (by omega)]

theorem entryBytes_append (es es' : List Entry) :
    entryBytes (es ++ es') = entryBytes es ++ entryBytes es' :=
  List.flatMap_append

/-- Behind entries that end within the first `k` bytes, the next ones are looked at. -/
theorem visible_append {k : Nat} {es es' : List Entry} (h : (entryBytes es).length ≤ k) :
    visible k (es ++ es') = es ++ visible (k - (entryBytes es).length) es' := by
  induction es generalizing k with
  | nil => rfl
  | cons e es ih =>
    have hcons : (entryBytes (e :: es)).length = e.msg.bytes.length + (entryBytes es).length := by
      simp [entryBytes]
    rw [List.cons_append, visible, if_pos (by omega), ih (by omega), hcons, List.cons_append,
      Nat.sub_sub]

end Visible

section Readers

variable {k : Nat} {es : List Entry}

/-- A loop over the messages of the beginning of a list. -/
theorem eachMsg_take {S : Type} {body : Bytes → Nat → Nat → S → Rd (S × Bool)}
    {step : Entry → S → S × Bool}
    (hbody : ∀ {data : Bytes} {off : Nat} {t : Bytes} (e : Entry) (s : S),
      data.drop off = e.msg.bytes ++ t →
        body data off (16 + e.msg.body.length) s = .ok (step e s))
    (hk : k < 2 ^ 64) (s : S) :
    eachMsg ((entryBytes es).take k) (body ((entryBytes es).take k))
      (((entryBytes es).take k).length + 1) 0 ((entryBytes es).take k).length s =
        .ok (runAll step (visible k es) s) := by
  have hcount := visible_count k es
  have hsize : ((entryBytes es).take k).length < 2 ^ 64 := by
    rw [List.length_take]
    omega
  exact eachMsg_visible (fun e off t s h => hbody e s h) es k 0 _ s rfl hsize
    (Nat.lt_succ_of_le hcount)

theorem runAll_doneStep (es : List Entry) :
    runAll doneStep es false = es.any fun e => (doneStep e false).1 := by
  induction es with
  | nil => rfl
  | cons e es ih =>
    cases e with
    | link l => exact ih
    | done m h => rfl

theorem nlHasDone_take (hk : k < 2 ^ 64) :
    nlHasDone (((entryBytes es).take k).length + 1) ((entryBytes es).take k) =
      .ok ((visible k es).any fun e => (doneStep e false).1) := by
  rw [← runAll_doneStep]
  exact eachMsg_take (fun e s h => doneBody_entry e s h) hk false

theorem netlinkFindIfname_take {name : CStr} (hname : (0 : UInt8) ∉ name) (hk : k < 2 ^ 64) :
    netlinkFindIfname (((entryBytes es).take k).length + 1) ((entryBytes es).take k) name =
      .ok (runAll (findStep name) (visible k es) none) :=
  eachMsg_take (fun e s h => findBody_entry hname e s h) hk none

theorem vethScanUsed_take {pre : CStr} (hpre : (0 : UInt8) ∉ pre) (hk : k < 2 ^ 64) (used : Used) :
    vethScanUsed (((entryBytes es).take k).length + 1) ((entryBytes es).take k) pre used =
      .ok (runAll (usedStep pre) (visible k es) used) :=
  eachMsg_take (fun e s h => usedBody_entry hpre e s h) hk used

end Readers

section Receive

variable {A B : Type} {κ : Kernel} {cap : Nat}

theorem run_ok {m : NetM A} {f : A → NetM B} {s s' : Sock} {a : A} (h : m s = .ok (a, s')) :
    (m >>= f) s = f a s' := by
  show (m s >>= fun r => f r.1 r.2) = _
  rw [h]
  rfl

theorem parse_ok {r : Rd A} {a : A} (h : r = .ok a) (s : Sock) : parse r s = .ok (a, s) := by
  rw [h]
  rfl

/-- The state after one more system call. -/
def Sock.tick (s : Sock) : Sock := { s with calls := s.calls + 1 }

/-- The state after a receive. -/
def Sock.took (s : Sock) (queue : List Bytes) : Sock := { s.tick with queue := queue }

theorem sysCall_works (hworks : ∀ n, κ.works n = true) (s : Sock) :
    sysCall κ s = .ok (true, s.tick) := by
  rw [← hworks s.calls]
  rfl

theorem sysNetlinkOpen_works (hworks : ∀ n, κ.works n = true) (s : Sock) :
    sysNetlinkOpen κ s = .ok (0, s.tick) :=
  run_ok (sysCall_works hworks s)

theorem sysNetlinkSend_works (hworks : ∀ n, κ.works n = true) (req : Bytes) (s : Sock) :
    sysNetlinkSend κ req s = .ok (0, s.tick.answer κ req) :=
  run_ok (sysCall_works hworks s)

theorem sysNetlinkRecv_next (hworks : ∀ n, κ.works n = true) {s : Sock} {d : Bytes}
    {queue : List Bytes} (hqueue : s.queue = d :: queue) (n : Nat) :
    sysNetlinkRecv κ n s = .ok (some (d.take n), s.took queue) := by
  refine (run_ok (sysCall_works hworks s)).trans ?_
  rw [if_pos rfl]
  refine (run_ok (show (get : NetM Sock) s.tick = .ok (s.tick, s.tick) from rfl)).trans ?_
  have htick : s.tick.queue = d :: queue := hqueue
  rw [htick]
  rfl

/-- A round of the loop. -/
theorem recvDumpLoop_next (hworks : ∀ n, κ.works n = true) {s : Sock} {d got : Bytes}
    {queue : List Bytes} {done : Bool} (hqueue : s.queue = d :: queue) (hroom : got.length < cap)
    (hne : d ≠ [])
    (hdone : nlHasDone ((d.take (cap - got.length)).length + 1) (d.take (cap - got.length)) =
      .ok done) (rounds : Nat) :
    recvDumpLoop κ cap (rounds + 1) got s =
      if done then
        .ok (some (got ++ d.take (cap - got.length)), s.took queue)
      else
        recvDumpLoop κ cap rounds (got ++ d.take (cap - got.length))
          (s.took queue) := by
  obtain ⟨n, hn⟩ : ∃ n, cap - got.length = n + 1 := ⟨cap - got.length - 1, by omega⟩
  obtain ⟨b, d', rfl⟩ := List.exists_cons_of_ne_nil hne
  rw [recvDumpLoop, if_neg (by omega)]
  refine (run_ok (sysNetlinkRecv_next hworks hqueue _)).trans ?_
  rw [hn] at hdone ⊢
  refine (run_ok (parse_ok hdone _)).trans ?_
  cases done <;> rfl

theorem recvDumpLoop_full {got : Bytes} (h : cap ≤ got.length) (rounds : Nat) (s : Sock) :
    recvDumpLoop κ cap (rounds + 1) got s = .ok (some got, s) := by
  rw [recvDumpLoop, if_pos h]
  rfl

theorem take_append_take {a b : Bytes} {n : Nat} (h : a.length ≤ n) :
    a ++ b.take (n - a.length) = (a ++ b).take n := by
  rw [List.take_append, List.take_of_length_le h]

theorem take_take_append (a b : Bytes) (n : Nat) : (a.take n ++ b).take n = (a ++ b).take n := by
  rw [List.take_append, List.take_append, List.take_take, Nat.min_self, List.length_take]
  by_cases h : n ≤ a.length
  · rw [Nat.min_eq_left h, Nat.sub_self, Nat.sub_eq_zero_of_le h]
  · rw [Nat.min_eq_right (by omega)]

theorem linkBytes_ne_nil {ls : List Link} (h : ls ≠ []) : linkBytes ls ≠ [] := by
  obtain ⟨l, ls, rfl⟩ := List.exists_cons_of_ne_nil h
  have hlen := l.msg.bytes_length
  intro hnil
  have hzero : (linkBytes (l :: ls)).length = 0 := by rw [hnil]; rfl
  have hcons : (linkBytes (l :: ls)).length = l.msg.bytes.length + (linkBytes ls).length := by
    simp [linkBytes, entryBytes, Entry.msg]
  omega

theorem any_done_links (k : Nat) (ls : List Link) :
    ((visible k (ls.map .link)).any fun e => (doneStep e false).1) = false := by
  rw [List.any_eq_false]
  intro e he
  obtain ⟨l, -, rfl⟩ := List.mem_map.mp ((visible_sublist k _).subset he)
  exact Bool.false_ne_true

/-- What a receive of a list leaves: the beginning of the bytes, and whether any
datagram stays behind. -/
structure Received (cap n : Nat) (bytes : Bytes) (s : Sock) (r : Except Halt (Option Bytes × Sock)) :
    Prop where
  result : ∃ s', r = .ok (some (bytes.take cap), s') ∧ (s'.queue = [] ↔ n < cap) ∧
    s'.acked = s.acked ∧ s'.dumps = s.dumps

theorem Received.full {got bytes : Bytes} {s : Sock} {n : Nat} (hgot : got.length = cap)
    (hqueue : s.queue ≠ []) (rounds : Nat) :
    Received cap (got.length + n) (got ++ bytes) s (recvDumpLoop κ cap (rounds + 1) got s) := by
  refine ⟨s, ?_, ⟨fun h => absurd h hqueue, fun h => by omega⟩, rfl, rfl⟩
  rw [recvDumpLoop_full (by omega), List.take_left' hgot]

theorem linkBytes_append (ls ls' : List Link) :
    linkBytes (ls ++ ls') = linkBytes ls ++ linkBytes ls' := by
  rw [linkBytes, List.map_append, entryBytes_append]
  rfl

/-- The loop of `netlink_recv_dump` on the rest of a list. -/
theorem recvDumpLoop_list (hworks : ∀ n, κ.works n = true) (hcap : cap < 2 ^ 64)
    {final : List Entry} (hfinal : (final.any fun e => (doneStep e false).1) = true)
    (earlier : List (List Link)) : ∀ (got : Bytes) (rounds : Nat) (s : Sock),
      (∀ ls ∈ earlier, ls ≠ []) → s.queue = earlier.map linkBytes ++ [entryBytes final] →
      entryBytes final ≠ [] → earlier.length + 2 ≤ rounds → got.length ≤ cap →
        Received cap (got.length + (linkBytes earlier.flatten).length)
          (got ++ (linkBytes earlier.flatten ++ entryBytes final)) s
          (recvDumpLoop κ cap rounds got s) := by
  induction earlier with
  | nil =>
    intro got rounds s _ hqueue hne hrounds hgot
    obtain ⟨rounds, rfl⟩ : ∃ n, rounds = n + 1 + 1 := ⟨rounds - 2, by simp at hrounds; omega⟩
    by_cases hroom : got.length < cap
    · rw [recvDumpLoop_next hworks hqueue hroom hne (nlHasDone_take (by omega)),
        take_append_take (Nat.le_of_lt hroom)]
      have hempty : linkBytes ([] : List (List Link)).flatten = [] := rfl
      rw [hempty, List.nil_append]
      split
      · exact ⟨_, rfl, ⟨fun _ => hroom, fun _ => rfl⟩, rfl, rfl⟩
      · rename_i hcut
        have hfull : cap ≤ ((got ++ entryBytes final).take cap).length := by
          rw [List.length_take, List.length_append]
          by_cases hfit : (entryBytes final).length ≤ cap - got.length
          · rw [visible_all hfit] at hcut
            exact absurd hfinal hcut
          · omega
        rw [recvDumpLoop_full hfull]
        exact ⟨_, rfl, ⟨fun _ => hroom, fun _ => rfl⟩, rfl, rfl⟩
    · exact .full (by omega) (by rw [hqueue]; exact List.cons_ne_nil _ _) _
  | cons ls earlier ih =>
    intro got rounds s hnonempty hqueue hne hrounds hgot
    obtain ⟨rounds, rfl⟩ : ∃ n, rounds = n + 1 := ⟨rounds - 1, by omega⟩
    by_cases hroom : got.length < cap
    · have hls := linkBytes_ne_nil (hnonempty ls List.mem_cons_self)
      rw [recvDumpLoop_next hworks hqueue hroom hls (nlHasDone_take (by omega)), any_done_links,
        if_neg Bool.false_ne_true, take_append_take (Nat.le_of_lt hroom)]
      have hrest := ih ((got ++ linkBytes ls).take cap) rounds
        (s.took (earlier.map linkBytes ++ [entryBytes final]))
        (fun ls' h => hnonempty ls' (List.mem_cons_of_mem ls h)) rfl hne
        (by rw [List.length_cons] at hrounds; omega) (List.length_take_le _ _)
      obtain ⟨s', hrun, hleft, hacked, hdumps⟩ := hrest
      refine ⟨s', ?_, hleft.trans ?_, hacked, hdumps⟩
      · refine hrun.trans ?_
        rw [take_take_append, List.flatten_cons, linkBytes_append]
        simp only [List.append_assoc]
      · rw [List.length_take, List.length_append, List.flatten_cons, linkBytes_append,
          List.length_append]
        omega
    · exact .full (by omega) (by rw [hqueue]; exact List.cons_ne_nil _ _) _

/-- `sys_netlink_recv_dump` of a list, from a queue with nothing else in it. -/
theorem sysNetlinkRecvDump_list (hworks : ∀ n, κ.works n = true) (hcap : cap < 2 ^ 64) (d : Dump)
    {s : Sock} (hqueue : s.queue = d.datagrams) :
    Received cap (linkBytes d.earlier.flatten).length (linkBytes d.earlier.flatten ++
      entryBytes d.finalEntries) s (sysNetlinkRecvDump κ cap s) := by
  have hdone : (d.finalEntries.any fun e => (doneStep e false).1) = true := by
    rw [Dump.finalEntries, List.any_append, Bool.or_eq_true]
    exact Or.inr rfl
  have hne : entryBytes d.finalEntries ≠ [] := by
    have hlen := d.last.bytes_length
    intro hnil
    have hzero : (entryBytes d.finalEntries).length = 0 := by rw [hnil]; rfl
    rw [Dump.finalEntries, entryBytes_append, List.length_append] at hzero
    have hlast : (entryBytes [Entry.done d.last d.isDone]).length = d.last.bytes.length := by
      simp [entryBytes, Entry.msg]
    omega
  have hloop := recvDumpLoop_list hworks hcap hdone d.earlier [] (s.queue.length + 1) s
    d.nonempty hqueue hne (by rw [hqueue]; simp [Dump.datagrams]) (Nat.zero_le _)
  rw [List.length_nil, Nat.zero_add, List.nil_append] at hloop
  exact hloop

end Receive

end Cage.Net
