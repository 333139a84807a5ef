import Cage.Sandbox.CgroupTree
import Cage.Util.Rmtree

/-!
`cgroup_rmdir_recursive` removes the cgroups below a path in which there is no process, and
leaves those on the way to one.
-/

namespace Cage.Sandbox.CgroupTree

open Lib.Hoare Util

/-- Something keeps the cgroup from being removed: there, or below. -/
def Occupied (k : Kernel) (t : Cgroups) (m : Loc) : Prop :=
  ∃ rel, m ++ rel ∈ t.dirs ∧ ((∃ p ∈ t.procs, p.2 = m ++ rel) ∨ k.refuses (m ++ rel) = true)

/-- From `t` to `t'`, what is in `S` has gone if nothing kept it. -/
structure Swept (k : Kernel) (S : Loc → Prop) (t t' : Cgroups) : Prop where
  procs : t'.procs = t.procs
  dirs : ∀ m, m ∈ t'.dirs ↔ m ∈ t.dirs ∧ (S m → Occupied k t m)

/-- The cgroups from `base` down are a tree, and each process is in one of them. -/
structure Wf (base : Loc) (t : Cgroups) : Prop where
  parent : ∀ l c, base <+: l → l ++ [c] ∈ t.dirs → l ∈ t.dirs
  named : ∀ l c, base <+: l → l ++ [c] ∈ t.dirs → ValidName c

/-- `readdir` gives every cgroup in a cgroup, and else the two dots and names. -/
structure Lists (k : Kernel) : Prop where
  all : ∀ t l c, l ++ [c] ∈ t.dirs → c ∈ k.listing t l
  named : ∀ t l, ∀ c ∈ k.listing t l,
    l ++ [c] ∈ t.dirs ∨ isDotOrDotdot c = true ∨ ValidName c ∧ c.length ≤ nameMax

/-- The paths of what is in the cgroups below fit. -/
def Fits (t : Cgroups) (path : CStr) (e : Loc) : Prop :=
  ∀ rel, e ++ rel ∈ t.dirs → (path ++ renderTail rel).length + nameMax + 1 < pathMax

section

variable {k : Kernel} {S S' : Loc → Prop} {t t' t'' : Cgroups} {e base : Loc} {path : CStr}

theorem Swept.occupied (h : Swept k S t t') (m : Loc) : Occupied k t' m ↔ Occupied k t m := by
  constructor
  · rintro ⟨rel, hmem, hkeep⟩
    refine ⟨rel, ((h.dirs _).mp hmem).1, ?_⟩
    rwa [h.procs] at hkeep
  · rintro ⟨rel, hmem, hkeep⟩
    have hself : Occupied k t (m ++ rel) := ⟨[], by rwa [List.append_nil], by rwa [List.append_nil]⟩
    refine ⟨rel, (h.dirs _).mpr ⟨hmem, fun _ => hself⟩, ?_⟩
    rwa [h.procs]

theorem Swept.refl (hS : ∀ m, ¬S m) : Swept k S t t where
  procs := rfl
  dirs m := ⟨fun hm => ⟨hm, fun h => absurd h (hS m)⟩, And.left⟩

theorem Swept.trans (h : Swept k S t t') (h' : Swept k S' t' t'') :
    Swept k (fun m => S m ∨ S' m) t t'' where
  procs := h'.procs.trans h.procs
  dirs m := by
    rw [h'.dirs, h.dirs, h.occupied]
    exact ⟨fun ⟨⟨hm, hs⟩, hs'⟩ => ⟨hm, fun hor => hor.elim hs hs'⟩,
      fun ⟨hm, hor⟩ => ⟨⟨hm, fun hs => hor (.inl hs)⟩, fun hs' => hor (.inr hs')⟩⟩

theorem Swept.congr (h : Swept k S t t') (hS : ∀ m ∈ t.dirs, S' m ↔ S m) : Swept k S' t t' where
  procs := h.procs
  dirs m := by
    rw [h.dirs]
    exact and_congr_right fun hm => by rw [hS m hm]

theorem Swept.sub (h : Swept k S t t') {m : Loc} (hm : m ∈ t'.dirs) : m ∈ t.dirs :=
  ((h.dirs m).mp hm).1

theorem Occupied.above {m rel : Loc} (h : Occupied k t (m ++ rel)) : Occupied k t m := by
  obtain ⟨more, hmem, hkeep⟩ := h
  rw [List.append_assoc] at hmem hkeep
  exact ⟨rel ++ more, hmem, hkeep⟩

theorem Wf.swept (hwf : Wf base t) (h : Swept k S t t') (hup : ∀ m c, S m → S (m ++ [c])) :
    Wf base t' where
  parent l c hbase hmem := by
    obtain ⟨hold, hkept⟩ := (h.dirs _).mp hmem
    exact (h.dirs l).mpr ⟨hwf.parent l c hbase hold, fun hs => (hkept (hup l c hs)).above⟩
  named l c hbase hmem := hwf.named l c hbase (h.sub hmem)

theorem Wf.of_all (h : ∀ m ∈ t.dirs, base <+: m.dropLast →
    m.dropLast ∈ t.dirs ∧ ∀ c ∈ m.getLast?, ValidName c) : Wf base t where
  parent l c hbase hmem := by
    have hm := h _ hmem
    rw [List.dropLast_concat] at hm
    exact (hm hbase).1
  named l c hbase hmem := by
    have hm := h _ hmem
    rw [List.dropLast_concat, List.getLast?_concat] at hm
    exact (hm hbase).2 c rfl

theorem Fits.of_all (h : ∀ m ∈ t.dirs, (path ++ renderTail (m.drop e.length)).length + nameMax + 1 < pathMax) :
    Fits t path e := by
  intro rel hmem
  have hm := h _ hmem
  rwa [List.drop_left] at hm

theorem Wf.of_dirs (hwf : Wf base t) (hdirs : t'.dirs = t.dirs) : Wf base t' where
  parent := hdirs ▸ hwf.parent
  named := hdirs ▸ hwf.named

theorem Fits.of_dirs (hfits : Fits t path e) (hdirs : t'.dirs = t.dirs) : Fits t' path e :=
  fun rel hmem => hfits rel (hdirs ▸ hmem)

theorem Fits.swept (hfits : Fits t path e) (h : Swept k S t t') : Fits t' path e :=
  fun rel hmem => hfits rel (h.sub hmem)

theorem Fits.child {c : CStr} (hfits : Fits t path e) : Fits t (path ++ slash :: c) (e ++ [c]) := by
  intro rel hmem
  rw [List.append_assoc, List.singleton_append] at hmem
  have hlen := hfits (c :: rel) hmem
  rwa [renderTail_cons, ← List.cons_append, ← List.append_assoc] at hlen

/-- With a cgroup, those above it are there. -/
theorem Wf.above (hwf : Wf base t) {l : Loc} (rel : Loc) (hbase : base <+: l)
    (hmem : l ++ rel ∈ t.dirs) : l ∈ t.dirs := by
  induction rel using List.reverseRecOn with
  | nil => rwa [List.append_nil] at hmem
  | append_singleton rel c ih =>
    rw [← List.append_assoc] at hmem
    exact ih (hwf.parent _ c (hbase.trans (List.prefix_append l rel)) hmem)

theorem find_mem (hcomps : comps path = e) (hlen : path.length < pathMax) (hmem : e ∈ t.dirs) :
    find t path = .ok e := by
  rw [find, if_neg (Nat.not_le.mpr hlen), hcomps, if_pos hmem]

theorem find_gone (hcomps : comps path = e) (hlen : path.length < pathMax) (hmem : e ∉ t.dirs) :
    find t path = .error .enoent := by
  rw [find, if_neg (Nat.not_le.mpr hlen), hcomps, if_neg hmem]

/-- When nothing is left in it that could go, `rmdir` removes what is not occupied. -/
theorem sysRmdir_swept (hfind : find t path = .ok e)
    (hleft : ∀ c, e ++ [c] ∈ t.dirs → Occupied k t (e ++ [c])) (hwf : Wf base t)
    (hbase : base <+: e) :
    Returns t (sysRmdir k path) fun r t' => Swept k (· = e) t t' ∧
      ((r = none ∧ e ∉ t'.dirs) ∨ (r = some .other ∧ Occupied k t e ∧ t' = t)) := by
  have hmem : e ∈ t.dirs := by
    unfold find at hfind
    split_ifs at hfind with hlen hmem
    exact Except.ok.inj hfind ▸ hmem
  by_cases hbusy : t.busy e = true ∨ k.refuses e = true
  · have hrun : (sysRmdir k path).run t = (some (some .other), t) := by
      show sysRmdir k path t = _
      simp only [sysRmdir, hfind, Bool.or_eq_true, if_pos hbusy]
    have hoccupied : Occupied k t e := by
      rcases hbusy with hbusy | hrefuses
      · rcases (Bool.or_eq_true _ _).mp hbusy with hproc | hchild
        · obtain ⟨p, hp, hat⟩ := List.any_eq_true.mp hproc
          exact ⟨[], by rwa [List.append_nil], .inl ⟨p, hp, by simpa using hat⟩⟩
        · obtain ⟨m, hm, hin⟩ := List.any_eq_true.mp hchild
          rw [Bool.and_eq_true, decide_eq_true_eq, decide_eq_true_eq] at hin
          have hsplit : e ++ [m.getLast hin.1] = m := hin.2 ▸ List.dropLast_concat_getLast hin.1
          exact (hleft _ (hsplit ▸ hm)).above
      · exact ⟨[], by rwa [List.append_nil], .inr (by rwa [List.append_nil])⟩
    exact Returns.of_run hrun ⟨⟨rfl, fun m => ⟨fun hm => ⟨hm, fun heq => heq ▸ hoccupied⟩, And.left⟩⟩,
      .inr ⟨rfl, hoccupied, rfl⟩⟩
  · have hrun : (sysRmdir k path).run t =
        (some none, { t with dirs := t.dirs.filter (· ≠ e) }) := by
      show sysRmdir k path t = _
      simp only [sysRmdir, hfind, Bool.or_eq_true, if_neg hbusy]
    obtain ⟨hidle, hwilling⟩ := not_or.mp hbusy
    have hfree : ¬Occupied k t e := by
      rintro ⟨rel, hat, hkeep⟩
      cases rel with
      | nil =>
        rw [List.append_nil] at hkeep
        rcases hkeep with ⟨p, hp, heq⟩ | hrefuses
        · exact hidle ((Bool.or_eq_true _ _).mpr
            (.inl (List.any_eq_true.mpr ⟨p, hp, decide_eq_true heq⟩)))
        · exact hwilling hrefuses
      | cons c rel =>
        have hchild : e ++ [c] ∈ t.dirs := by
          refine hwf.above rel (hbase.trans (List.prefix_append e [c])) ?_
          rwa [List.append_assoc]
        exact hidle ((Bool.or_eq_true _ _).mpr (.inr (List.any_eq_true.mpr ⟨_, hchild, by simp⟩)))
    refine Returns.of_run hrun ⟨⟨rfl, fun m => ?_⟩, .inl ⟨rfl, by simp⟩⟩
    rw [List.mem_filter, decide_eq_true_eq]
    exact and_congr_right fun _ => ⟨fun hne heq => absurd heq hne,
      fun hocc heq => hfree (heq ▸ hocc heq)⟩

/-- What is below the names that `rmdir_children` goes through. -/
def BelowNames (e : Loc) (names : List CStr) (m : Loc) : Prop :=
  ∃ c ∈ names, isDotOrDotdot c = false ∧ e ++ [c] <+: m

theorem belowNames_up {names : List CStr} {m : Loc} (c : CStr) (h : BelowNames e names m) :
    BelowNames e names (m ++ [c]) := by
  obtain ⟨c', hc', hdots, hbelow⟩ := h
  exact ⟨c', hc', hdots, hbelow.trans (List.prefix_append m [c])⟩

/-- The call for a cgroup, `n` calls deep at most. -/
def Sweeps (k : Kernel) (base : Loc) (recursive : CStr → CgM Int) (n : Nat) : Prop :=
  ∀ t path e, comps path = e → base <+: e → e ∈ t.dirs → Wf base t → Fits t path e →
    pathMax ≤ path.length + n →
    Returns t (recursive path) fun r t' => Swept k (e <+: ·) t t' ∧
      ((r = 0 ∧ e ∉ t'.dirs) ∨ (r = -1 ∧ e ∈ t'.dirs))

theorem Fits.short (hfits : Fits t path e) (hmem : e ∈ t.dirs) {c : CStr} (hlen : c.length ≤ nameMax) :
    (path ++ slash :: c).length < pathMax := by
  have hroom := hfits [] (by rwa [List.append_nil])
  rw [List.length_append] at hroom
  rw [List.length_append, List.length_cons]
  omega

theorem rmdirChildren_swept {recursive : CStr → CgM Int} {n : Nat}
    (hrec : Sweeps k base recursive n) (names : List CStr)
    (hnames : ∀ c ∈ names, isDotOrDotdot c = true ∨
      ValidName c ∧ (path ++ slash :: c).length < pathMax)
    (hcomps : comps path = e) (hbase : base <+: e) (hmem : e ∈ t.dirs) (hwf : Wf base t)
    (hfits : Fits t path e) (hdeep : pathMax ≤ path.length + (n + 1)) :
    Returns t (rmdirChildren recursive path names) fun _ t' =>
      Swept k (BelowNames e names) t t' := by
  induction names generalizing t with
  | nil => exact Returns.pure (Swept.refl fun m ⟨_, hc, _⟩ => nomatch hc)
  | cons c names ih =>
    have hrest := fun c' hc' => hnames c' (List.mem_cons_of_mem c hc')
    cases hdots : isDotOrDotdot c with
    | true =>
      rw [rmdirChildren, if_pos hdots]
      refine (ih hrest hmem hwf hfits).mono fun _ t' hswept => hswept.congr fun m _ => ?_
      refine ⟨fun ⟨c', hc', hno, hbelow⟩ => ?_, fun ⟨c', hc', hno, hbelow⟩ =>
        ⟨c', List.mem_cons_of_mem c hc', hno, hbelow⟩⟩
      rcases List.mem_cons.mp hc' with rfl | hc'
      · exact absurd (hdots.symm.trans hno) (by decide)
      · exact ⟨c', hc', hno, hbelow⟩
    | false =>
      obtain ⟨hvalid, hshort⟩ := (hnames c List.mem_cons_self).resolve_left (by rw [hdots]; decide)
      have hchild : truncated pathMax (path ++ slash :: c) = path ++ slash :: c :=
        List.take_of_length_le (Nat.le_sub_one_of_lt hshort)
      have hcomps' : comps (path ++ slash :: c) = e ++ [c] := by
        rw [← hcomps]
        exact Volume.comps_child hvalid
      have hjoin (m : Loc) :
          BelowNames e (c :: names) m ↔ e ++ [c] <+: m ∨ BelowNames e names m := by
        constructor
        · rintro ⟨c', hc', hno, hbelow⟩
          rcases List.mem_cons.mp hc' with rfl | hc'
          · exact .inl hbelow
          · exact .inr ⟨c', hc', hno, hbelow⟩
        · rintro (hbelow | ⟨c', hc', hno, hbelow⟩)
          · exact ⟨c, List.mem_cons_self, hdots, hbelow⟩
          · exact ⟨c', List.mem_cons_of_mem c hc', hno, hbelow⟩
      rw [rmdirChildren, if_neg (by rw [hdots]; decide)]
      simp only [hchild]
      refine Returns.bind (Q := fun dir t' => dir = decide (e ++ [c] ∈ t.dirs) ∧ t = t')
        (Returns.of_run rfl ⟨?_, rfl⟩) ?_
      · by_cases hthere : e ++ [c] ∈ t.dirs
        · rw [find_mem hcomps' hshort hthere, decide_eq_true hthere]
          rfl
        · rw [find_gone hcomps' hshort hthere, decide_eq_false hthere]
          rfl
      rintro _ _ ⟨rfl, rfl⟩
      refine Returns.ite (fun hdir => ?_) fun hdir => ?_
      · have hthere : e ++ [c] ∈ t.dirs := of_decide_eq_true hdir
        have hfall : base <+: e ++ [c] := hbase.trans (List.prefix_append e [c])
        refine Returns.bind (hrec t _ _ hcomps' hfall hthere hwf hfits.child ?_) ?_
        · rw [List.length_append, List.length_cons]
          omega
        · rintro r t₁ ⟨hswept, -⟩
          have hkept : e ∈ t₁.dirs := (hswept.dirs e).mpr ⟨hmem, fun hbelow => absurd hbelow.length_le
            (by rw [List.length_append]; exact Nat.not_succ_le_self _)⟩
          refine (ih hrest hkept (hwf.swept hswept fun m c' hm =>
            hm.trans (List.prefix_append m [c'])) (hfits.swept hswept)).mono fun _ t' hswept' => ?_
          exact (hswept.trans hswept').congr fun m _ => hjoin m
      · have hgone : e ++ [c] ∉ t.dirs := of_decide_eq_false (by simpa using hdir)
        refine (ih hrest hmem hwf hfits).mono fun _ t' hswept => hswept.congr fun m hm => ?_
        rw [hjoin]
        refine or_iff_right fun ⟨rel, hrel⟩ => hgone (hwf.above rel ?_ (hrel ▸ hm))
        exact hbase.trans (List.prefix_append e [c])

theorem isDotOrDotdot_valid {c : CStr} (h : ValidName c) : isDotOrDotdot c = false := by
  unfold isDotOrDotdot
  rw [Bool.or_eq_false_iff, beq_eq_false_iff_ne, beq_eq_false_iff_ne]
  exact h.2.2

theorem cgroupRmdirRecursive_sweeps (hlists : Lists k) (n : Nat) :
    Sweeps k base (cgroupRmdirRecursive k n) n := by
  induction n with
  | zero =>
    intro t path e hcomps hbase hmem hwf hfits hdeep
    have hshort := hfits [] (by rwa [List.append_nil])
    rw [List.length_append] at hshort
    omega
  | succ n ih =>
    intro t path e hcomps hbase hmem hwf hfits hdeep
    have hshort : path.length < pathMax := by
      have hroom := hfits [] (by rwa [List.append_nil])
      rw [List.length_append] at hroom
      omega
    have hfind : find t path = .ok e := find_mem hcomps hshort hmem
    have hopen : (opendir k path).run t = (some (.ok (k.listing t e)), t) := by
      show (some ((find t path).map (k.listing t)), t) = _
      rw [hfind]
      rfl
    refine Returns.bind (Q := fun d t' => d = .ok (k.listing t e) ∧ t = t')
      (Returns.of_run hopen ⟨rfl, rfl⟩) ?_
    rintro _ _ ⟨rfl, rfl⟩
    have hnames (c : CStr) (hc : c ∈ k.listing t e) : isDotOrDotdot c = true ∨
        ValidName c ∧ (path ++ slash :: c).length < pathMax := by
      rcases hlists.named t e c hc with hthere | hdots | ⟨hvalid, hlen⟩
      · refine .inr ⟨hwf.named e c hbase hthere, ?_⟩
        have hroom := hfits [c] hthere
        rw [renderTail_cons, renderTail, List.flatMap_nil, List.append_nil] at hroom
        omega
      · exact .inl hdots
      · exact .inr ⟨hvalid, hfits.short hmem hlen⟩
    refine Returns.bind (rmdirChildren_swept ih _ hnames hcomps hbase hmem hwf hfits hdeep)
      fun _ t₁ hswept => ?_
    have hkept : e ∈ t₁.dirs := by
      refine (hswept.dirs e).mpr ⟨hmem, fun ⟨c, _, _, hbelow⟩ => absurd hbelow.length_le ?_⟩
      rw [List.length_append]
      exact Nat.not_succ_le_self _
    have hwf₁ : Wf base t₁ := hwf.swept hswept fun m c => belowNames_up c
    have hleft (c : CStr) (hc : e ++ [c] ∈ t₁.dirs) : Occupied k t₁ (e ++ [c]) := by
      obtain ⟨hold, hocc⟩ := (hswept.dirs _).mp hc
      have hvalid := hwf.named e c hbase hold
      exact (hswept.occupied _).mpr (hocc ⟨c, hlists.all t e c hold, isDotOrDotdot_valid hvalid,
        List.prefix_refl _⟩)
    have hsplit (m : Loc) (hm : m ∈ t.dirs) : e <+: m ↔ BelowNames e (k.listing t e) m ∨ m = e := by
      constructor
      · rintro ⟨rel, rfl⟩
        cases rel with
        | nil => exact .inr (List.append_nil e)
        | cons c rel =>
          have hchild : e ++ [c] ∈ t.dirs := by
            refine hwf.above rel (hbase.trans (List.prefix_append e [c])) ?_
            rwa [List.append_assoc]
          refine .inl ⟨c, hlists.all t e c hchild, isDotOrDotdot_valid (hwf.named e c hbase hchild), ?_⟩
          exact ⟨rel, by rw [List.append_assoc, List.singleton_append]⟩
      · rintro (⟨c, -, -, hbelow⟩ | rfl)
        · exact (List.prefix_append e [c]).trans hbelow
        · exact List.prefix_refl m
    refine Returns.bind (sysRmdir_swept (find_mem hcomps hshort hkept) hleft hwf₁ hbase) ?_
    rintro r t₂ ⟨hlast, hresult⟩
    have hall : Swept k (e <+: ·) t t₂ := (hswept.trans hlast).congr hsplit
    rcases hresult with ⟨rfl, hgone⟩ | ⟨rfl, -, rfl⟩
    · exact Returns.pure ⟨hall, .inl ⟨rfl, hgone⟩⟩
    · exact Returns.pure ⟨hall, .inr ⟨rfl, hkept⟩⟩

theorem Cgroups.mem_moved {p q : Nat} {l m : Loc} : (q, m) ∈ (t.moved p l).procs ↔
    (q ≠ p ∧ (q, m) ∈ t.procs) ∨ (q = p ∧ m = l ∧ ∃ l', (p, l') ∈ t.procs) := by
  unfold Cgroups.moved
  rw [List.mem_map]
  constructor
  · rintro ⟨⟨q', m'⟩, hmem, heq⟩
    by_cases hp : q' = p
    · rw [if_pos hp, Prod.mk.injEq] at heq
      exact .inr ⟨heq.1.symm, heq.2.symm, m', hp ▸ hmem⟩
    · rw [if_neg hp, Prod.mk.injEq] at heq
      obtain ⟨rfl, rfl⟩ := heq
      exact .inl ⟨hp, hmem⟩
  · rintro (⟨hne, hmem⟩ | ⟨rfl, rfl, l', hmem⟩)
    · exact ⟨(q, m), hmem, if_neg hne⟩
    · exact ⟨(q, l'), hmem, if_pos rfl⟩

theorem Wf.snoc {base l : Loc} {c : CStr} (h : Wf base t) (hl : l ∈ t.dirs) (hc : ValidName c) :
    Wf base { t with dirs := t.dirs ++ [l ++ [c]] } where
  parent m d hbase hmem := by
    rcases List.mem_append.mp hmem with hold | hnew
    · exact List.mem_append_left _ (h.parent m d hbase hold)
    · obtain ⟨rfl, -⟩ := List.append_inj' (List.mem_singleton.mp hnew) rfl
      exact List.mem_append_left _ hl
  named m d hbase hmem := by
    rcases List.mem_append.mp hmem with hold | hnew
    · exact h.named m d hbase hold
    · obtain ⟨-, hd⟩ := List.append_inj' (List.mem_singleton.mp hnew) rfl
      exact List.singleton_injective hd ▸ hc

theorem Wf.filter {base l : Loc} (h : Wf base t) (hidle : t.busy l = false) :
    Wf base { t with dirs := t.dirs.filter (· ≠ l) } where
  parent m d hbase hmem := by
    obtain ⟨hold, -⟩ := List.mem_filter.mp hmem
    refine List.mem_filter.mpr ⟨h.parent m d hbase hold, decide_eq_true fun heq => ?_⟩
    subst heq
    rw [Cgroups.busy, Bool.or_eq_false_iff, List.any_eq_false] at hidle
    exact absurd (hidle.2) (by
      rw [Bool.not_eq_false, List.any_eq_true]
      exact ⟨m ++ [d], hold, by simp⟩)
  named m d hbase hmem := h.named m d hbase (List.mem_filter.mp hmem).1

/-- There is nothing to remove. -/
theorem cgroupRmdirRecursive_gone (n : Nat) (hgone : find t path = .error .enoent) :
    Returns t (cgroupRmdirRecursive k (n + 1) path) fun r t' => r = 0 ∧ t' = t := by
  have hopen : (opendir k path).run t = (some (.error .enoent), t) := by
    show (some ((find t path).map (k.listing t)), t) = _
    rw [hgone]
    rfl
  refine Returns.bind (Q := fun d t' => d = .error .enoent ∧ t' = t)
    (Returns.of_run hopen ⟨rfl, rfl⟩) ?_
  rintro _ t' ⟨rfl, ht⟩
  exact Returns.pure ⟨rfl, ht⟩

/-- Exactly what nothing keeps is removed, and the result says whether something is left. -/
theorem cgroupRmdirRecursive_exact (hlists : Lists k) (t : Cgroups) (path : CStr) (e : Loc)
    (hcomps : comps path = e) (hshort : path.length < pathMax) (hbase : base <+: e) (hwf : Wf base t)
    (hfits : Fits t path e) :
    ∃ r t', (cgroupRmdirRecursive k pathMax path).run t = (some r, t') ∧ t'.procs = t.procs ∧
      (∀ m, m ∈ t'.dirs ↔ m ∈ t.dirs ∧ (e <+: m → Occupied k t m)) ∧
      ((r = 0 ∧ ¬Occupied k t e) ∨ (r = -1 ∧ Occupied k t e)) := by
  by_cases hmem : e ∈ t.dirs
  · obtain ⟨r, t', hrun, hswept, hresult⟩ := (cgroupRmdirRecursive_sweeps hlists pathMax t path e
      hcomps hbase hmem hwf hfits (Nat.le_add_left _ _)).run
    refine ⟨r, t', hrun, hswept.procs, hswept.dirs, ?_⟩
    have hleft : e ∈ t'.dirs ↔ Occupied k t e := (hswept.dirs e).trans
      ⟨fun h => h.2 (List.prefix_refl e), fun h => ⟨hmem, fun _ => h⟩⟩
    rwa [hleft] at hresult
  · have hnone (m : Loc) (hbelow : e <+: m) (hm : m ∈ t.dirs) : False := by
      obtain ⟨rel, rfl⟩ := hbelow
      exact hmem (hwf.above rel hbase hm)
    have hempty : ¬Occupied k t e := fun ⟨rel, hm, _⟩ => hnone _ (List.prefix_append e rel) hm
    obtain ⟨r, t', hrun, hr, ht⟩ :=
      (cgroupRmdirRecursive_gone (k := k) 4095 (find_gone hcomps hshort hmem)).run
    refine ⟨r, t', hrun, congrArg Cgroups.procs ht, fun m => ?_, .inl ⟨hr, hempty⟩⟩
    rw [ht]
    exact ⟨fun hm => ⟨hm, fun hbelow => (hnone m hbelow hm).elim⟩, And.left⟩

end

/-- A cgroup with two below it, and a process in the one of them. -/
def sampleTree : Cgroups where
  dirs := [[lit "cg"], [lit "cg", lit "a"], [lit "cg", lit "a", lit "b"], [lit "cg", lit "a", lit "c"]]
  procs := [(7, [lit "cg", lit "a", lit "c"])]

/-- `readdir` gives the dots and a file with the cgroups. -/
def plainKernel : Kernel where
  listing t l := [lit ".", lit "..", lit "cgroup.procs"] ++
    t.dirs.filterMap fun m => if m.dropLast = l then m.getLast? else none
  refuses _ := false
  admits _ _ := true

theorem plainKernel_lists : Lists plainKernel where
  all t l c hmem := by
    refine List.mem_append_right _ (List.mem_filterMap.mpr ⟨l ++ [c], hmem, ?_⟩)
    rw [if_pos List.dropLast_concat, List.getLast?_concat]
  named t l c hc := by
    rcases List.mem_append.mp hc with hplain | hgroup
    · have hall : ∀ c ∈ [lit ".", lit "..", lit "cgroup.procs"],
          isDotOrDotdot c = true ∨ ValidName c ∧ c.length ≤ nameMax := by decide
      exact .inr (hall c hplain)
    · obtain ⟨m, hm, hlast⟩ := List.mem_filterMap.mp hgroup
      split at hlast
      · rename_i hdrop
        obtain ⟨ys, rfl⟩ := List.getLast?_eq_some_iff.mp hlast
        rw [List.dropLast_concat] at hdrop
        exact .inl (hdrop ▸ hm)
      · cases hlast

theorem sampleTree_wf : Wf [lit "cg"] sampleTree := Wf.of_all (by decide)

theorem cgroupRmdirRecursive_exact_occupied :
    ∃ r t', (cgroupRmdirRecursive plainKernel pathMax (lit "/cg/a")).run sampleTree = (some r, t') ∧
      t'.procs = sampleTree.procs ∧
      (∀ m, m ∈ t'.dirs ↔ m ∈ sampleTree.dirs ∧
        ([lit "cg", lit "a"] <+: m → Occupied plainKernel sampleTree m)) ∧
      ((r = 0 ∧ ¬Occupied plainKernel sampleTree [lit "cg", lit "a"]) ∨
        (r = -1 ∧ Occupied plainKernel sampleTree [lit "cg", lit "a"])) :=
  cgroupRmdirRecursive_exact plainKernel_lists sampleTree (lit "/cg/a") _ (by decide) (by decide)
    (by decide) sampleTree_wf (Fits.of_all (by decide))

/-- The process keeps its cgroup and the ones above, and not the one beside. -/
example : ((cgroupRmdirRecursive plainKernel 4 (lit "/cg/a")).run sampleTree).2.dirs =
    [[lit "cg"], [lit "cg", lit "a"], [lit "cg", lit "a", lit "c"]] := by decide +kernel

end Cage.Sandbox.CgroupTree
