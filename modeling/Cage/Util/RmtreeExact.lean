import Cage.Util.RmtreeRuns

/-!
What `io_rmtree` removes of the object a path names, and what it leaves: exactly what
cannot be removed and the directories above it. The lookup of the path must not pass
through what is removed.
-/

namespace Cage.Util.Volume

/-- From `e` on down, what is in the tree is in a directory of it and has a name. -/
structure Sound (t : Tree) (e : Loc) : Prop where
  parent : ∀ rel c, bodyAt t (e ++ rel ++ [c]) ≠ none → bodyAt t (e ++ rel) = some .dir
  named : ∀ rel c, bodyAt t (e ++ rel ++ [c]) ≠ none → ValidName c ∧ c.length ≤ nameMax

/-- The path names what is at `e`, a directory whose path does not lead through it or
anything else. -/
def Spot (k : Kernel) (t : Tree) (path : CStr) (e : Loc) : Prop :=
  (bodyAt t e = some .dir ∧ find k t false path = .ok e ∧ Leads k (cleared t e) path e) ∨
    (∃ b, bodyAt t e = some b ∧ b ≠ .dir ∧ slashed path = false ∧ Entry k t path e)

/-- What `io_rmtree` returns and leaves for what is at `e`. -/
structure Removes (k : Kernel) (t : Tree) (path : CStr) (e : Loc) (r : Int × IoState Tree) :
    Prop where
  zero : r.1 = 0 ↔ ¬ Blocked k t path e []
  failed : r.1 ≠ 0 → r.1 = -1
  outside : ∀ m, ¬ e <+: m → r.2.sys.lookup m = t.lookup m
  kept : ∀ rel, Blocked k t path e rel → r.2.sys.lookup (e ++ rel) = t.lookup (e ++ rel)
  gone : ∀ rel, ¬ Blocked k t path e rel → r.2.sys.lookup (e ++ rel) = none

/-- What the loop of `rmtree_dir` over some names of the directory `e` has done to `t₁`,
where `t` is the tree at its start. -/
structure Looped (k : Kernel) (t : Tree) (path : CStr) (e : Loc) (names : List CStr) (rc : Int)
    (t₁ : Tree) (r : Int × IoState Tree) : Prop where
  zero : r.1 = 0 ↔ rc = 0 ∧ ∀ c ∈ names, ¬ Blocked k t path e [c]
  outside : ∀ m, (∀ c ∈ names, ¬ e ++ [c] <+: m) → r.2.sys.lookup m = t₁.lookup m
  kept : ∀ c ∈ names, ∀ rel, Blocked k t path e (c :: rel) →
    r.2.sys.lookup (e ++ c :: rel) = t.lookup (e ++ c :: rel)
  gone : ∀ c ∈ names, ∀ rel, ¬ Blocked k t path e (c :: rel) →
    r.2.sys.lookup (e ++ c :: rel) = none

/-- The path does not lead through what is below the directory it names. -/
def Straight (k : Kernel) (t : Tree) (path : CStr) (e : Loc) : Prop :=
  bodyAt t e = some .dir → Leads k (cleared t e) path e

/-- `io_rmtree` removes exactly the subtree. -/
structure RemovesSubtree (k : Kernel) (w : IoState Tree) (path : CStr) : Prop where
  deeper : ∀ n, rmtreeDepth (volume k) (pathBuffer + 1 + n) path = ioRmtree (volume k) path
  confined : Confined k w.sys path (ioRmtree (volume k) path w).2.sys
  zero : (ioRmtree (volume k) path w).1 = 0 ↔
    ∃ err, find k (ioRmtree (volume k) path w).2.sys false path = .error err
  removes : ∀ e, find k w.sys false path = .ok e →
    Removes k w.sys path e (ioRmtree (volume k) path w)

section

variable {k : Kernel} {t t' : Tree} {path c : CStr} {e rel : Loc} {names : List CStr} {b : Body}
  {r : Int × IoState Tree}

/-- Nothing is below what is no directory. -/
theorem Sound.nothing (h : Sound t e) (hdir : bodyAt t (e ++ rel) ≠ some .dir) {more : Loc}
    (hmore : more ≠ []) : bodyAt t (e ++ (rel ++ more)) = none := by
  induction more using List.reverseRecOn with
  | nil => exact absurd rfl hmore
  | append_singleton ms c ih =>
    by_contra hbody
    rw [← List.append_assoc, ← List.append_assoc, List.append_assoc e] at hbody
    have hparent := h.parent (rel ++ ms) c hbody
    by_cases hms : ms = []
    · rw [hms, List.append_nil] at hparent
      exact hdir hparent
    · rw [ih hms] at hparent
      cases hparent

theorem Sound.child (h : Sound t e)
    (hagree : ∀ m, e ++ [c] <+: m → t'.lookup m = t.lookup m) : Sound t' (e ++ [c]) := by
  have hbody (rel : Loc) : bodyAt t' (e ++ [c] ++ rel) = bodyAt t (e ++ (c :: rel)) := by
    unfold bodyAt
    rw [hagree _ (List.prefix_append _ _), List.append_assoc, List.singleton_append]
  constructor
  · intro rel x hx
    rw [List.append_assoc, hbody] at hx
    rw [hbody]
    exact h.parent (c :: rel) x (by rwa [List.append_assoc])
  · intro rel x hx
    rw [List.append_assoc, hbody] at hx
    exact h.named (c :: rel) x (by rwa [List.append_assoc])

theorem obstacle_blocked (h : Obstacle k t path e rel) : Blocked k t path e rel :=
  ⟨[], by rwa [List.append_nil]⟩

theorem Blocked.up {more : Loc} (h : Blocked k t path e (rel ++ more)) : Blocked k t path e rel := by
  obtain ⟨rest, hrest⟩ := h
  exact ⟨more ++ rest, by rwa [List.append_assoc] at hrest⟩

/-- What is behind an obstacle on the way down stays. -/
theorem blocked_of_lost (h : lost k path e rel = true) (hbody : bodyAt t (e ++ rel) ≠ none) :
    Blocked k t path e rel :=
  obstacle_blocked ⟨hbody, Or.inr (Or.inr (Or.inl h))⟩

theorem lookup_of_unblocked {m : Loc} (h : bodyAt t m ≠ none → Blocked k t path e rel)
    (hfree : ¬ Blocked k t path e rel) : t.lookup m = none := by
  by_contra hm
  exact hfree (h fun hbody => hm (bodyAt_eq_none.mp hbody))

/-- Nothing has been removed, and nothing could be. -/
theorem removes_nothing (hall : ∀ rel, bodyAt t (e ++ rel) ≠ none → Blocked k t path e rel)
    (hbody : bodyAt t e ≠ none) (hr : r.1 = -1) (ht : r.2.sys = t) : Removes k t path e r where
  zero := by
    have hblocked := hall [] (by rwa [List.append_nil])
    rw [hr]
    exact iff_of_false (by decide) fun hfree => hfree hblocked
  failed _ := hr
  outside _ _ := by rw [ht]
  kept _ _ := by rw [ht]
  gone rel hrel := by
    rw [ht]
    exact lookup_of_unblocked (hall rel) hrel

/-- Anything but a directory is removed if the kernel does not keep it. -/
theorem blocked_leaf (hsound : Sound t e) (hbody : bodyAt t e = some b) (hb : b ≠ .dir)
    (hentry : Entry k t path e) : Blocked k t path e [] ↔ k.keeps e = true := by
  constructor
  · rintro ⟨more, hthere, hcause⟩
    rw [List.nil_append] at hthere hcause
    have hmore : more = [] := by
      by_contra hmore
      refine hthere ?_
      rw [← List.nil_append more]
      refine hsound.nothing ?_ hmore
      rw [List.append_nil, hbody]
      exact fun heq => hb (Option.some.inj heq)
    subst hmore
    rw [List.append_nil, hbody] at hcause
    rcases hcause with hkeeps | ⟨hdir, -⟩ | hlost | ⟨-, hno⟩
    · exact hkeeps
    · exact absurd (Option.some.inj hdir) hb
    · cases hlost
    · exact absurd hentry hno
  · intro hkeeps
    refine obstacle_blocked ⟨?_, Or.inl ?_⟩
    · rw [List.append_nil, hbody]
      exact Option.some_ne_none b
    · rwa [List.append_nil]

theorem unlinkAt_removes (hsound : Sound t e) (hbody : bodyAt t e = some b) (hb : b ≠ .dir)
    (hslash : slashed path = false) (hentry : Entry k t path e)
    (hr : r.1 = tolerant (unlinkAt k path t).1) (ht : r.2.sys = (unlinkAt k path t).2) :
    Removes k t path e r := by
  have hblocked := blocked_leaf hsound hbody hb hentry
  have hthere {rel : Loc} (hrel : bodyAt t (e ++ rel) ≠ none) : rel = [] := by
    by_contra hne
    refine hrel ?_
    rw [← List.nil_append rel]
    refine hsound.nothing ?_ hne
    rw [List.append_nil, hbody]
    exact fun heq => hb (Option.some.inj heq)
  have hsome : bodyAt t e ≠ none := by
    rw [hbody]
    exact Option.some_ne_none b
  obtain ⟨l, name, hlast, hspecial, rfl⟩ := hentry
  have hrun : unlinkAt k path t =
      if k.keeps (l ++ [name]) then (some .other, t) else (none, t.erase (l ++ [name])) := by
    unfold unlinkAt
    rw [hlast]
    dsimp only
    rw [if_neg (by simp [hspecial]), hbody, hslash, Bool.false_or]
    cases b with
    | dir => exact absurd rfl hb
    | file | link target => rfl
  rw [hrun] at hr ht
  cases hkeeps : k.keeps (l ++ [name]) with
  | true =>
    rw [hkeeps, if_pos rfl] at hr ht
    refine removes_nothing (fun rel hrel => ?_) hsome hr ht
    rw [hthere hrel]
    exact hblocked.mpr hkeeps
  | false =>
    rw [hkeeps, if_neg (by simp)] at hr ht
    have hfree : ¬ Blocked k t path (l ++ [name]) [] := by
      rw [hblocked, hkeeps]
      exact Bool.false_ne_true
    have hnone (rel : Loc) : ¬ Blocked k t path (l ++ [name]) rel := by
      intro h
      rw [← List.nil_append rel] at h
      exact hfree h.up
    refine ⟨iff_of_true hr hfree, fun h => absurd hr h, fun m hm => ?_,
      fun rel h => absurd h (hnone rel), fun rel _ => ?_⟩
    · rw [ht]
      exact AList.lookup_erase_ne fun heq => hm (heq ▸ List.prefix_rfl)
    · rw [ht]
      by_cases hrel : rel = []
      · rw [hrel, List.append_nil, AList.lookup_erase]
      · refine (sub_erase t _).none (bodyAt_eq_none.mp ?_)
        by_contra hbody'
        exact hrel (hthere hbody')

theorem obstacle_child (hopen : k.closed e = false) (hseen : k.hides (e ++ [c]) = false)
    (hfits : (path ++ slash :: c).length < pathBuffer)
    (hentry : Entry k t (path ++ slash :: c) (e ++ [c])) :
    Obstacle k t path e (c :: rel) ↔ Obstacle k t (path ++ slash :: c) (e ++ [c]) rel := by
  have hloc : e ++ c :: rel = e ++ [c] ++ rel := by rw [List.append_assoc, List.singleton_append]
  unfold Obstacle
  rw [lost, hopen, hseen, hloc, decide_eq_false (Nat.not_le.mpr hfits)]
  simp [hentry]

/-- What is blocked below a name in the directory is what is blocked for its path. -/
theorem blocked_child (hopen : k.closed e = false) (hseen : k.hides (e ++ [c]) = false)
    (hfits : (path ++ slash :: c).length < pathBuffer)
    (hentry : Entry k t (path ++ slash :: c) (e ++ [c])) :
    Blocked k t path e (c :: rel) ↔ Blocked k t (path ++ slash :: c) (e ++ [c]) rel :=
  exists_congr fun _ => obstacle_child hopen hseen hfits hentry

theorem Blocked.congr (hagree : ∀ m, e <+: m → t'.lookup m = t.lookup m)
    (hentry : Entry k t' path e ↔ Entry k t path e) :
    Blocked k t' path e rel ↔ Blocked k t path e rel := by
  refine exists_congr fun more => ?_
  have hbody : bodyAt t' (e ++ (rel ++ more)) = bodyAt t (e ++ (rel ++ more)) := by
    unfold bodyAt
    rw [hagree _ (List.prefix_append e _)]
  unfold Obstacle
  rw [hbody, hentry]

/-- A directory is blocked by itself or by something in it. -/
theorem blocked_dir (hsome : bodyAt t e ≠ none) :
    Blocked k t path e [] ↔
      (k.keeps e = true ∨ (bodyAt t e = some .dir ∧ k.closed e = true) ∨ ¬ Entry k t path e) ∨
        ∃ c, Blocked k t path e [c] := by
  constructor
  · rintro ⟨more, hmore⟩
    cases more with
    | nil =>
      obtain ⟨-, hcause⟩ := hmore
      rw [List.nil_append, List.append_nil] at hcause
      rcases hcause with hkeeps | hclosed | hlost | ⟨-, hno⟩
      · exact Or.inl (Or.inl hkeeps)
      · exact Or.inl (Or.inr (Or.inl hclosed))
      · cases hlost
      · exact Or.inl (Or.inr (Or.inr hno))
    | cons c more => exact Or.inr ⟨c, more, hmore⟩
  · rintro (hcause | ⟨c, more, hmore⟩)
    · refine obstacle_blocked ?_
      unfold Obstacle
      rw [List.append_nil]
      refine ⟨hsome, ?_⟩
      rcases hcause with hkeeps | hclosed | hno
      · exact Or.inl hkeeps
      · exact Or.inr (Or.inl hclosed)
      · exact Or.inr (Or.inr (Or.inr ⟨rfl, hno⟩))
    · exact ⟨c :: more, hmore⟩

/-- Two names of a directory lead to different places. -/
theorem child_unique {x : CStr} {m : Loc} (h : e ++ [c] <+: m) (h' : e ++ [x] <+: m) : c = x := by
  have hpre : e ++ [c] <+: e ++ [x] := by
    refine List.prefix_of_prefix_length_le h h' ?_
    rw [List.length_append, List.length_append]
    exact Nat.le_refl _
  have heq := hpre.eq_of_length (by rw [List.length_append, List.length_append]; rfl)
  exact List.singleton_inj.mp (List.append_cancel_left heq)

theorem below_child {m : Loc} (h : e ++ [c] <+: m) : e <+: m ∧ m ≠ e := by
  refine ⟨(List.prefix_append e [c]).trans h, ?_⟩
  rintro rfl
  have hlen := h.length_le
  rw [List.length_append, List.length_singleton] at hlen
  omega

/-- What is outside of `e` has not been cleared away for something in it. -/
theorem sub_cleared_child (hfront : Sub (cleared t e) t') :
    Sub (cleared t e) (cleared t' (e ++ [c])) := by
  intro m i hm
  rw [lookup_cleared]
  split
  · rename_i hbelow
    rw [lookup_cleared, if_pos (below_child hbelow.1)] at hm
    cases hm
  · exact hfront m i hm

/-- A name in the directory gives a path for it, whatever has been removed before. -/
theorem spot_child (hleads : Leads k (cleared t e) path e) (hfront : Sub (cleared t e) t')
    (hname : ValidName c) (hlen : c.length ≤ nameMax)
    (hfits : (path ++ slash :: c).length < pathMax) (hthere : bodyAt t' (e ++ [c]) ≠ none) :
    Spot k t' (path ++ slash :: c) (e ++ [c]) := by
  have hleads' := hleads.mono hfront
  have hlast := hleads'.child_last hname hlen hfits
  obtain ⟨b, hbody⟩ := Option.ne_none_iff_exists'.mp hthere
  by_cases hb : b = .dir
  · subst hb
    refine Or.inl ⟨hbody, find_of_entry hlast (special_of_valid hname) hbody (Or.inl rfl)
      fun _ _ => rfl, ?_⟩
    refine (hleads.mono (sub_cleared_child hfront)).child hname hlen hfits ?_
    unfold bodyAt
    rw [lookup_cleared, if_neg fun h => h.2 rfl]
    exact hbody
  · exact Or.inr ⟨b, hbody, hb, slashed_child hname, hleads'.child_entry hname hlen hfits⟩

theorem fits_pathMax {p : CStr} (h : p.length < pathBuffer) : p.length < pathMax := h

/-- The loop over one name more, after what it does with that name. -/
theorem Looped.cons {rc rc' : Int} {t₁ t₂ : Tree} (hc : c ∉ names)
    (hrc : rc' = 0 ↔ rc = 0 ∧ ¬ Blocked k t path e [c])
    (houtside : ∀ m, ¬ e ++ [c] <+: m → t₂.lookup m = t₁.lookup m)
    (hkept : ∀ rel, Blocked k t path e (c :: rel) →
      t₂.lookup (e ++ c :: rel) = t.lookup (e ++ c :: rel))
    (hgone : ∀ rel, ¬ Blocked k t path e (c :: rel) → t₂.lookup (e ++ c :: rel) = none)
    (h : Looped k t path e names rc' t₂ r) : Looped k t path e (c :: names) rc t₁ r := by
  have hbelow (rel : Loc) : e ++ [c] <+: e ++ c :: rel := ⟨rel, by simp⟩
  have hlater (rel : Loc) : r.2.sys.lookup (e ++ c :: rel) = t₂.lookup (e ++ c :: rel) := by
    refine h.outside _ fun x hx hpre => ?_
    rw [child_unique (hbelow rel) hpre] at hc
    exact hc hx
  constructor
  · rw [h.zero, hrc, List.forall_mem_cons, and_assoc]
  · intro m hm
    rw [List.forall_mem_cons] at hm
    rw [h.outside m hm.2, houtside m hm.1]
  · intro x hx rel hblocked
    rcases List.mem_cons.mp hx with rfl | hx
    · rw [hlater, hkept rel hblocked]
    · exact h.kept x hx rel hblocked
  · intro x hx rel hfree
    rcases List.mem_cons.mp hx with rfl | hx
    · rw [hlater, hgone rel hfree]
    · exact h.gone x hx rel hfree

/-- The loop of `rmtree_dir`, with what the call for a child does. -/
theorem rmtreeDir_removes {rmtree : CStr → Io Tree Int}
    (hrmtree : ∀ c w, ValidName c → (path ++ slash :: c).length < pathBuffer →
      Sound w.sys (e ++ [c]) → Spot k w.sys (path ++ slash :: c) (e ++ [c]) →
      Removes k w.sys (path ++ slash :: c) (e ++ [c]) (rmtree (path ++ slash :: c) w))
    (hsound : Sound t e) (hopen : k.closed e = false) (hleads : Leads k (cleared t e) path e)
    (hnodup : names.Nodup) (hnames : ∀ c ∈ names, c ∈ listed k t e) (w : IoState Tree) (rc : Int)
    (hfront : Sub (cleared t e) w.sys)
    (hagree : ∀ c ∈ names, ∀ m, e ++ [c] <+: m → w.sys.lookup m = t.lookup m) :
    Looped k t path e names rc w.sys (rmtreeDir rmtree path rc names w) := by
  induction names generalizing w rc with
  | nil =>
    exact ⟨by simp [rmtreeDir_nil], fun _ _ => rfl, fun c hc => absurd hc (List.not_mem_nil),
      fun c hc => absurd hc (List.not_mem_nil)⟩
  | cons c names ih =>
    rw [List.nodup_cons] at hnodup
    rw [List.forall_mem_cons] at hnames hagree
    obtain ⟨hthere, hseen⟩ := mem_listed.mp hnames.1
    have hloc (rel : Loc) : e ++ c :: rel = e ++ [c] ++ rel := by simp
    have hbody : bodyAt t (e ++ [c]) ≠ none := fun h => hthere (bodyAt_eq_none.mp h)
    have hbelow (rel : Loc) : e ++ [c] <+: e ++ c :: rel := ⟨rel, by simp⟩
    obtain ⟨hname, hlen⟩ := hsound.named [] c (by rwa [List.append_nil])
    rw [rmtreeDir_cons hname]
    split
    · -- the joined name does not fit, and what it names is lost
      rename_i hlong
      have hlost (rel : Loc) : lost k path e (c :: rel) = true := by
        rw [lost, decide_eq_true hlong, Bool.or_true, Bool.true_or]
      have hsame (rel : Loc) : w.sys.lookup (e ++ c :: rel) = t.lookup (e ++ c :: rel) :=
        hagree.1 _ (hbelow rel)
      refine (ih hnodup.2 hnames.2 w (-1) hfront hagree.2).cons hnodup.1 ?_ (fun _ _ => rfl)
        (fun rel _ => hsame rel) fun rel hfree => ?_
      · exact iff_of_false (by decide) fun h => h.2 (blocked_of_lost (hlost []) hbody)
      · rw [hsame]
        exact lookup_of_unblocked (blocked_of_lost (hlost rel)) hfree
    · rename_i hfits
      have hfits : (path ++ slash :: c).length < pathBuffer := Nat.lt_of_not_le hfits
      have hthere' : bodyAt w.sys (e ++ [c]) ≠ none := by
        unfold bodyAt
        rw [hagree.1 _ List.prefix_rfl]
        exact hbody
      have hremoves := hrmtree c w hname hfits (hsound.child hagree.1)
        (spot_child hleads hfront hname hlen (fits_pathMax hfits) hthere')
      have hentry := (hleads.mono cleared_sub).child_entry hname hlen (fits_pathMax hfits)
      have hentry' := (hleads.mono hfront).child_entry hname hlen (fits_pathMax hfits)
      have hblocked (rel : Loc) : Blocked k w.sys (path ++ slash :: c) (e ++ [c]) rel ↔
          Blocked k t path e (c :: rel) :=
        (Blocked.congr hagree.1 (iff_of_true hentry' hentry)).trans
          (blocked_child hopen hseen hfits hentry).symm
      refine (ih hnodup.2 hnames.2 _ _ ?_ ?_).cons hnodup.1 ?_ hremoves.outside ?_ ?_
      · -- what is outside of `e` is still there
        intro m i hm
        rw [hremoves.outside m fun hpre => ?_]
        · exact hfront m i hm
        · rw [lookup_cleared, if_pos (below_child hpre)] at hm
          cases hm
      · intro x hx m hpre
        rw [hremoves.outside m fun hpre' => ?_]
        · exact hagree.2 x hx m hpre
        · rw [child_unique hpre' hpre] at hnodup
          exact hnodup.1 hx
      · rw [← hblocked, ← hremoves.zero]
        by_cases hr : (rmtree (path ++ slash :: c) w).1 = 0
        · simp [hr]
        · simp [hr]
      · intro rel hrel
        rw [hloc, hremoves.kept rel ((hblocked rel).mpr hrel), ← hloc]
        exact hagree.1 _ (hbelow rel)
      · intro rel hrel
        rw [hloc]
        exact hremoves.gone rel fun h => hrel ((hblocked rel).mp h)

theorem rmdirAt_entry (hdir : bodyAt t e = some .dir) (hentry : Entry k t path e) :
    rmdirAt k path t =
      if children t e ≠ [] ∨ k.keeps e = true then (some .other, t) else (none, t.erase e) := by
  obtain ⟨l, name, hlast, hspecial, rfl⟩ := hentry
  unfold rmdirAt
  rw [hlast]
  dsimp only
  rw [if_neg (by simp [hspecial]), hdir]

/-- `rmdir` does not remove a directory by `.`, `..` or a link. -/
theorem rmdirAt_other (hfind : find k t false path = .ok e) (hno : ¬ Entry k t path e) :
    rmdirAt k path t = (some .other, t) := by
  obtain ⟨l, name, hlast⟩ := exists_last hfind
  unfold rmdirAt
  rw [hlast]
  dsimp only
  cases hspecial : special name with
  | true => rfl
  | false =>
    rcases last_of_find hfind hlast with hfalse | ⟨heq, -⟩ | ⟨-, target, hlink⟩
    · rw [hspecial] at hfalse
      cases hfalse
    · exact absurd ⟨l, name, hlast, hspecial, heq⟩ hno
    · rw [if_neg (by simp), hlink]

/-- `unlink` does not remove a directory, nor anything with a slash behind it. -/
theorem unlinkAt_dir (hdir : bodyAt t e = some .dir) (hfind : find k t false path = .ok e) :
    unlinkAt k path t = (some .other, t) := by
  obtain ⟨l, name, hlast⟩ := exists_last hfind
  unfold unlinkAt
  rw [hlast]
  dsimp only
  cases hspecial : special name with
  | true => rfl
  | false =>
    rw [if_neg (by simp)]
    rcases last_of_find hfind hlast with hfalse | ⟨heq, -⟩ | ⟨hslash, target, hlink⟩
    · rw [hspecial] at hfalse
      cases hfalse
    · rw [heq, hdir]
    · rw [hlink, hslash]
      rfl

theorem entry_congr (hsub : Sub t' t) (hleads : Leads k t' path e) :
    Entry k t' path e ↔ Entry k t path e := by
  obtain ⟨l, name, hlast⟩ := hleads.last
  constructor
  · rintro ⟨l, name, h, hrest⟩
    exact ⟨l, name, lastOf_mono hsub h, hrest⟩
  · rintro ⟨l', name', h, hrest⟩
    rw [lastOf_mono hsub hlast] at h
    cases h
    exact ⟨l, name, hlast, hrest⟩

/-- The path of a directory still finds it when everything below is gone. -/
theorem find_cleared (hdir : bodyAt t e = some .dir) (hfind : find k t false path = .ok e)
    (hleads : Leads k (cleared t e) path e) : find k (cleared t e) false path = .ok e := by
  refine (find_nofollow hleads.find).resolve_right ?_
  rintro ⟨m, target, hm, hlink⟩
  have hsame := find_mono cleared_sub hm
  rw [hfind] at hsame
  cases hsame
  rw [cleared_sub.bodyAt hlink] at hdir
  cases hdir

theorem listed_nodup (k : Kernel) (t : Tree) (l : Loc) : (listed k t l).Nodup :=
  (children_nodup t l).filter _

theorem Sound.there (h : Sound t e) (rel more : Loc)
    (hbody : bodyAt t (e ++ (rel ++ more)) ≠ none) : bodyAt t (e ++ rel) ≠ none := by
  by_cases hmore : more = []
  · rwa [hmore, List.append_nil] at hbody
  · intro hnone
    exact hbody (h.nothing (by rw [hnone]; simp) hmore)

theorem Blocked.there (hsound : Sound t e) (h : Blocked k t path e rel) :
    bodyAt t (e ++ rel) ≠ none := by
  obtain ⟨more, hthere, -⟩ := h
  exact hsound.there rel more hthere

/-- The directory `e` after the loop: what could be removed of its contents is gone. -/
structure Emptied (k : Kernel) (t : Tree) (path : CStr) (e : Loc) (t₁ : Tree) : Prop where
  outside : ∀ m, (∀ c, ¬ e ++ [c] <+: m) → t₁.lookup m = t.lookup m
  kept : ∀ c rel, Blocked k t path e (c :: rel) →
    t₁.lookup (e ++ c :: rel) = t.lookup (e ++ c :: rel)
  gone : ∀ c rel, ¬ Blocked k t path e (c :: rel) → t₁.lookup (e ++ c :: rel) = none

theorem child_front (c : CStr) (rel : Loc) : e ++ [c] <+: e ++ c :: rel := ⟨rel, by simp⟩

/-- What `readdir` does not give stays as well. -/
theorem Looped.emptied {rc : Int} (h : Looped k t path e (listed k t e) rc t r) (hsound : Sound t e) :
    Emptied k t path e r.2.sys := by
  have hskipped {c : CStr} (rel : Loc) (hc : c ∉ listed k t e) :
      r.2.sys.lookup (e ++ c :: rel) = t.lookup (e ++ c :: rel) := by
    refine h.outside _ fun x hx hpre => ?_
    rw [child_unique hpre (child_front c rel)] at hx
    exact hc hx
  have hlost {c : CStr} {rel : Loc} (hc : c ∉ listed k t e)
      (hbody : bodyAt t (e ++ c :: rel) ≠ none) : Blocked k t path e (c :: rel) := by
    refine blocked_of_lost ?_ hbody
    have hthere : bodyAt t (e ++ [c]) ≠ none := hsound.there [c] rel hbody
    have hhides : k.hides (e ++ [c]) = true := by
      by_contra hhides
      rw [Bool.not_eq_true] at hhides
      exact hc (mem_listed.mpr ⟨fun h => hthere (bodyAt_eq_none.mpr h), hhides⟩)
    rw [lost, hhides, Bool.or_true, Bool.true_or, Bool.true_or]
  constructor
  · exact fun m hm => h.outside m fun c _ => hm c
  · intro c rel hblocked
    by_cases hc : c ∈ listed k t e
    · exact h.kept c hc rel hblocked
    · exact hskipped rel hc
  · intro c rel hfree
    by_cases hc : c ∈ listed k t e
    · exact h.gone c hc rel hfree
    · rw [hskipped rel hc]
      exact lookup_of_unblocked (hlost hc) hfree

theorem Emptied.self (h : Emptied k t path e t') : t'.lookup e = t.lookup e :=
  h.outside e fun _ hpre => (below_child hpre).2 rfl

theorem Emptied.front (h : Emptied k t path e t') : Sub (cleared t e) t' := by
  intro m i hm
  rw [lookup_cleared] at hm
  split at hm
  · cases hm
  · rename_i hbelow
    rw [h.outside m fun c hpre => hbelow (below_child hpre)]
    exact hm

/-- The directory stays, with what is left in it. -/
theorem Emptied.stays (h : Emptied k t path e t') (hblocked : Blocked k t path e [])
    (hr : r.1 = -1) (ht : r.2.sys = t') : Removes k t path e r where
  zero := by
    rw [hr]
    exact iff_of_false (by decide) fun hfree => hfree hblocked
  failed _ := hr
  outside m hm := by
    rw [ht]
    exact h.outside m fun c hpre => hm (below_child hpre).1
  kept rel hrel := by
    rw [ht]
    cases rel with
    | nil => rw [List.append_nil, h.self]
    | cons c rel => exact h.kept c rel hrel
  gone rel hrel := by
    rw [ht]
    cases rel with
    | nil => exact absurd hblocked hrel
    | cons c rel => exact h.gone c rel hrel

/-- The directory goes too. -/
theorem Emptied.goes (h : Emptied k t path e t') (hfree : ¬ Blocked k t path e [])
    (hr : r.1 = 0) (ht : r.2.sys = t'.erase e) : Removes k t path e r where
  zero := iff_of_true hr hfree
  failed hne := absurd hr hne
  outside m hm := by
    have hne : m ≠ e := by
      rintro rfl
      exact hm List.prefix_rfl
    rw [ht, AList.lookup_erase_ne hne]
    exact h.outside m fun c hpre => hm (below_child hpre).1
  kept rel hrel := absurd (Blocked.up hrel) hfree
  gone rel hrel := by
    rw [ht]
    cases rel with
    | nil => rw [List.append_nil, AList.lookup_erase]
    | cons c rel => exact (sub_erase t' e).none (h.gone c rel hrel)

/-- `rmdir` for the directory whose contents have been removed. -/
theorem rmdirAt_removes (h : Emptied k t path e t') (hsound : Sound t e)
    (hdir : bodyAt t e = some .dir) (hopen : k.closed e = false)
    (hfind : find k t false path = .ok e) (hleads : Leads k (cleared t e) path e)
    (hr : r.1 = tolerant (rmdirAt k path t').1) (ht : r.2.sys = (rmdirAt k path t').2) :
    Removes k t path e r := by
  have hdir' : bodyAt t' e = some .dir := by
    unfold bodyAt
    rw [h.self]
    exact hdir
  have hentry : Entry k t' path e ↔ Entry k t path e :=
    (entry_congr h.front hleads).symm.trans (entry_congr cleared_sub hleads)
  have hblocked : Blocked k t path e [] ↔ _ :=
    blocked_dir (by rw [hdir]; exact Option.some_ne_none _)
  have hleft (c : CStr) : Blocked k t path e [c] ↔ c ∈ children t' e := by
    rw [mem_children]
    constructor
    · intro hc
      rw [h.kept c [] hc]
      exact fun hnone => hc.there hsound (bodyAt_eq_none.mpr hnone)
    · intro hc
      by_contra hfree
      exact hc (h.gone c [] hfree)
  by_cases hname : Entry k t path e
  · rw [rmdirAt_entry hdir' (hentry.mpr hname)] at hr ht
    split at hr
    · rename_i hfull
      rw [if_pos hfull] at ht
      refine h.stays (hblocked.mpr ?_) hr ht
      rcases hfull with hfull | hkeeps
      · obtain ⟨c, hc⟩ := List.exists_mem_of_ne_nil _ hfull
        exact Or.inr ⟨c, (hleft c).mpr hc⟩
      · exact Or.inl (Or.inl hkeeps)
    · rename_i hempty
      rw [if_neg hempty] at ht
      refine h.goes (fun hb => hempty ?_) hr ht
      rcases hblocked.mp hb with (hkeeps | ⟨-, hclosed⟩ | hno) | ⟨c, hc⟩
      · exact Or.inr hkeeps
      · rw [hopen] at hclosed
        cases hclosed
      · exact absurd hname hno
      · exact Or.inl (List.ne_nil_of_mem ((hleft c).mp hc))
  · have hfind' := find_mono h.front (find_cleared hdir hfind hleads)
    rw [rmdirAt_other hfind' fun hno => hname (hentry.mp hno)] at hr ht
    exact h.stays (hblocked.mpr (Or.inl (Or.inr (Or.inr hname)))) hr ht

/-- `io_rmtree` for a directory that is opened. -/
theorem rmtreeLast_removes (hdir : bodyAt t e = some .dir) (hsound : Sound t e)
    (hopen : k.closed e = false) (hfind : find k t false path = .ok e)
    (hleads : Leads k (cleared t e) path e) {s : Int × IoState Tree}
    (hloop : Looped k t path e (listed k t e) 0 t s) :
    Removes k t path e (rmtreeLast (volume k) path s.1 s.2) := by
  have hemptied := hloop.emptied hsound
  by_cases hrc : s.1 = 0
  · rw [hrc]
    obtain ⟨hr, ht⟩ := rmtreeLast_run (volume k) path s.2
    exact rmdirAt_removes hemptied hsound hdir hopen hfind hleads hr ht
  · have hblocked : Blocked k t path e [] := by
      by_contra hfree
      exact hrc (hloop.zero.mpr ⟨rfl, fun c _ hc => hfree (Blocked.up hc)⟩)
    rw [rmtreeLast_failed (volume k) path hrc]
    exact hemptied.stays hblocked rfl rfl

theorem Spot.short (h : Spot k t path e) : path.length < pathMax := by
  rcases h with ⟨-, hfind, -⟩ | ⟨b, -, -, -, l, name, hlast, -⟩
  · exact (find_ok hfind).2
  · exact (lastOf_ok hlast).2

/-- What one call of `io_rmtree` does, with what the calls for the children do. -/
theorem rmtreeStep_removes {rmtree : CStr → Io Tree Int} {w : IoState Tree}
    (hrmtree : ∀ c w, ValidName c → (path ++ slash :: c).length < pathBuffer →
      Sound w.sys (e ++ [c]) → Spot k w.sys (path ++ slash :: c) (e ++ [c]) →
      Removes k w.sys (path ++ slash :: c) (e ++ [c]) (rmtree (path ++ slash :: c) w))
    (hsound : Sound w.sys e) (hspot : Spot k w.sys path e) :
    Removes k w.sys path e (rmtreeStep (volume k) rmtree path w) := by
  rw [rmtreeStep_run]
  obtain ⟨hr, ht⟩ := unlinkCached_run (volume k) path w
  rcases hspot with ⟨hdir, hfind, hleads⟩ | ⟨b, hbody, hb, hslash, hentry⟩
  · rw [lookKind_of_find hfind hdir, if_neg (by simp [Body.kind]), rmtreeOpened_run]
    have hfound := (hleads.mono cleared_sub).find
    cases hopen : k.closed e with
    | true =>
      -- a directory that `opendir` does not open is not unlinked either
      have hnone : openDir k w.sys path = none := by
        unfold openDir
        rw [hfound]
        simp [hopen]
      rw [hnone]
      have hrun : (volume k).unlink path w.sys = (some .other, w.sys) := unlinkAt_dir hdir hfind
      rw [hrun] at hr ht
      refine removes_nothing (fun rel hrel => ?_) (by rw [hdir]; simp) hr ht
      cases rel with
      | nil =>
        refine obstacle_blocked ⟨hrel, Or.inr (Or.inl ?_)⟩
        rw [List.append_nil]
        exact ⟨hdir, hopen⟩
      | cons c rel => exact blocked_of_lost (by rw [lost, hopen]; simp) hrel
    | false =>
      have hnames : openDir k w.sys path = some ([dot] :: [dot, dot] :: listed k w.sys e) := by
        unfold openDir
        rw [hfound]
        exact if_pos ⟨hdir, hopen⟩
      rw [hnames]
      dsimp only
      rw [rmtreeDir_dots]
      exact rmtreeLast_removes hdir hsound hopen hfind hleads
        (rmtreeDir_removes hrmtree hsound hopen hleads (listed_nodup k w.sys e) (fun _ hc => hc) w 0
          cleared_sub fun _ _ _ _ => rfl)
  · have hunlink := unlinkAt_removes hsound hbody hb hslash hentry hr ht
    split
    · exact hunlink
    · rename_i hnolink
      obtain ⟨l, name, hlast, hspecial, rfl⟩ := hentry
      have hfind (f : Bool) (hlink : ∀ target, b = .link target → f = false) :=
        find_of_entry hlast hspecial hbody (Or.inr hslash) hlink
      have hnone : openDir k w.sys path = none := by
        unfold openDir
        cases b with
        | dir => exact absurd rfl hb
        | file =>
          rw [hfind true (by simp)]
          simp [hbody]
        | link target => exact absurd (lookKind_of_find (hfind false fun _ _ => rfl) hbody) hnolink
      rw [rmtreeOpened_run, hnone]
      exact hunlink

theorem rmtreeDepth_removes {n : Nat} (hn : pathBuffer < n + path.length) {w : IoState Tree}
    (hsound : Sound w.sys e) (hspot : Spot k w.sys path e) :
    Removes k w.sys path e (rmtreeDepth (volume k) n path w) := by
  induction n generalizing path e w with
  | zero =>
    have hshort : path.length < pathBuffer := hspot.short
    omega
  | succ n ih =>
    refine rmtreeStep_removes (fun c w' _ _ hsound' hspot' => ih ?_ hsound' hspot') hsound hspot
    rw [List.length_append, List.length_cons]
    omega

theorem Wf.sound (hwf : Wf t) (e : Loc) : Sound t e :=
  ⟨fun rel c h => hwf.parent (e ++ rel) c h, fun rel c h => hwf.names (e ++ rel) c h⟩

theorem Wf.proper (hwf : Wf t) : Proper t :=
  fun l c h => hwf.names l c fun hnone => h (bodyAt_eq_none.mp hnone)

/-- The last component of a path is looked up in a directory of the tree. -/
theorem Wf.lastOf_dir (hwf : Wf t) (hcwd : bodyAt t (start k.cwd path) = some .dir) {l : Loc}
    {name : CStr} (h : lastOf k t path = .ok (l, name)) : bodyAt t l = some .dir := by
  obtain ⟨hne, hshort⟩ := lastOf_ok h
  rw [lastOf_eq hne hshort] at h
  cases hwalk : walk t true noGone linksMax (start k.cwd path)
      ((comps path).dropLast ++ [[dot]]) with
  | error err =>
    rw [hwalk] at h
    cases h
  | ok m =>
    have hdir := hwf.walk_dot_dir hcwd hwalk
    rw [hwalk] at h
    change (if ((comps path).getLast?.getD [dot]).length > nameMax then _ else _) = _ at h
    split at h <;> cases h
    exact hdir

/-- `.` and `..` name directories. -/
theorem Wf.special_dir (hwf : Wf t) (hcwd : bodyAt t (start k.cwd path) = some .dir) {l : Loc}
    {name : CStr} (hlast : lastOf k t path = .ok (l, name)) (hspecial : special name = true)
    (hslash : slashed path = false) (hfind : find k t false path = .ok e) :
    bodyAt t e = some .dir := by
  have hl := hwf.lastOf_dir hcwd hlast
  obtain ⟨-, m, hm⟩ := find_last hlast
  have hstep : ∃ l', step t l name = .into l' := by
    unfold special at hspecial
    rw [Bool.or_eq_true, beq_iff_eq, beq_iff_eq] at hspecial
    rcases hspecial with rfl | rfl <;> exact ⟨_, rfl⟩
  obtain ⟨l', hstep⟩ := hstep
  rw [hm, hslash, walk_cons, hstep] at hfind
  change walk t false noGone m l' [] = .ok e at hfind
  rw [walk_nil] at hfind
  cases hfind
  exact hwf.dir_of_into hl hstep

/-- What a path names is a spot. -/
theorem spot_of_find (hwf : Wf t) (hcwd : bodyAt t (start k.cwd path) = some .dir)
    (hfind : find k t false path = .ok e) (hstraight : Straight k t path e) : Spot k t path e := by
  obtain ⟨hne, hshort⟩ := find_ok hfind
  have hwalk := hfind
  rw [find_eq hne hshort] at hwalk
  obtain ⟨b, hbody⟩ := Option.ne_none_iff_exists'.mp (hwf.walk_there hcwd hwalk)
  by_cases hb : b = .dir
  · subst hb
    exact Or.inl ⟨hbody, hfind, hstraight hbody⟩
  · have hslash : slashed path = false := by
      by_contra hslash
      rw [Bool.not_eq_false] at hslash
      rw [parts, if_pos hslash, walk_dot_follow] at hwalk
      rw [hwf.walk_dot_dir hcwd hwalk] at hbody
      exact hb (Option.some.inj hbody).symm
    obtain ⟨l, name, hlast⟩ := exists_last hfind
    cases hspecial : special name with
    | true =>
      rw [hwf.special_dir hcwd hlast hspecial hslash hfind] at hbody
      exact absurd (Option.some.inj hbody).symm hb
    | false =>
      rcases last_of_find hfind hlast with htrue | ⟨heq, -⟩ | ⟨htrue, -⟩
      · rw [hspecial] at htrue
        cases htrue
      · exact Or.inr ⟨b, hbody, hb, hslash, l, name, hlast, hspecial, heq⟩
      · rw [hslash] at htrue
        cases htrue

/-- `io_rmtree` comes to an end, touches nothing but what the path names and what is
below, and where the path is straight leaves exactly what cannot be removed. -/
theorem ioRmtree_removes {w : IoState Tree} (hwf : Wf w.sys)
    (hcwd : bodyAt w.sys (start k.cwd path) = some .dir) :
    (∀ n, rmtreeDepth (volume k) (pathBuffer + 1 + n) path = ioRmtree (volume k) path) ∧
      Confined k w.sys path (ioRmtree (volume k) path w).2.sys ∧
      (∀ err, find k w.sys false path = .error err →
        (ioRmtree (volume k) path w).2.sys = w.sys ∧
          ((ioRmtree (volume k) path w).1 = 0 ↔ err = .enoent ∧ ¬ Hanging k w.sys path)) ∧
      ∀ e, find k w.sys false path = .ok e → Straight k w.sys path e →
        Removes k w.sys path e (ioRmtree (volume k) path w) ∧
          ((ioRmtree (volume k) path w).1 = 0 ↔
            (ioRmtree (volume k) path w).2.sys.lookup e = none) := by
  refine ⟨fun n => ioRmtree_deeper (volume k) n path, rmtreeDepth_confined _ path w hwf.proper,
    fun err herr => rmtreeDepth_missing _ herr, fun e hfind hstraight => ?_⟩
  have hspot := spot_of_find hwf hcwd hfind hstraight
  have hremoves : Removes k w.sys path e (ioRmtree (volume k) path w) :=
    rmtreeDepth_removes (by omega) (hwf.sound e) hspot
  refine ⟨hremoves, hremoves.zero.trans ?_⟩
  have hthere : w.sys.lookup e ≠ none := by
    obtain ⟨hne, hshort⟩ := find_ok hfind
    rw [find_eq hne hshort] at hfind
    exact fun hnone => hwf.walk_there hcwd hfind (bodyAt_eq_none.mpr hnone)
  constructor
  · intro hfree
    have hgone := hremoves.gone [] hfree
    rwa [List.append_nil] at hgone
  · intro hgone hblocked
    have hkept := hremoves.kept [] hblocked
    rw [List.append_nil, hgone] at hkept
    exact hthere hkept.symm

end

/-- `/t` with a file, and with a link to the root. -/
def linkedState : IoState Tree where
  cache := emptyCache
  sys := ((bareTree.insert ([] ++ [lit "t"]) ⟨.dir, rootIds⟩).insert ([lit "t"] ++ [lit "b"])
    ⟨.file, rootIds⟩).insert ([lit "t"] ++ [lit "l"]) ⟨.link (lit "/"), rootIds⟩

theorem linked_wf : Wf linkedState.sys := by
  refine Wf.insert_new (Wf.insert_new (Wf.insert_new bare_wf ?_ ?_ ?_ _) ?_ ?_ ?_ _) ?_ ?_ ?_ _
  all_goals decide

/-- The link in `/t` is removed, and not the root. -/
theorem ioRmtree_removes_linked :
    Removes freeKernel linkedState.sys (lit "/t") [lit "t"]
      (ioRmtree (volume freeKernel) (lit "/t") linkedState) :=
  ((ioRmtree_removes linked_wf (by decide)).2.2.2 [lit "t"] (by decide)
    fun _ => ⟨by decide, by decide, by decide⟩).1

def fileState : IoState Tree where
  cache := emptyCache
  sys := bareTree.insert ([] ++ [lit "f"]) ⟨.file, rootIds⟩

/-- `/t` with a file, and a link to it beside it. -/
def besideState : IoState Tree where
  cache := emptyCache
  sys := ((bareTree.insert ([] ++ [lit "t"]) ⟨.dir, rootIds⟩).insert ([lit "t"] ++ [lit "b"])
    ⟨.file, rootIds⟩).insert ([] ++ [lit "l"]) ⟨.link (lit "/t"), rootIds⟩

/-- There is nothing at `/f/x` where `/f` is a file, and -1 comes back. `/t/l/t` leads to
`/t` through a link in it: when the link is gone, so is the path, and the rest stays. And
`/l/` with a link `/l` to `/t` empties `/t`, and leaves it and the link. -/
theorem ioRmtree_leaves :
    ((ioRmtree (volume freeKernel) (lit "/f/x") fileState).1 = -1 ∧
      find freeKernel fileState.sys false (lit "/f/x") = .error .other) ∧
    ((ioRmtree (volume freeKernel) (lit "/t/l/t") linkedState).1 = 0 ∧
      bodyAt (ioRmtree (volume freeKernel) (lit "/t/l/t") linkedState).2.sys [lit "t", lit "b"] =
        some .file) ∧
    ((ioRmtree (volume freeKernel) (lit "/l/") besideState).1 = -1 ∧
      bodyAt besideState.sys [lit "t", lit "b"] = some .file ∧
      bodyAt (ioRmtree (volume freeKernel) (lit "/l/") besideState).2.sys [lit "t", lit "b"] =
        none ∧
      bodyAt (ioRmtree (volume freeKernel) (lit "/l/") besideState).2.sys [lit "l"] =
        some (.link (lit "/t"))) ∧
    (¬ RemovesSubtree freeKernel fileState (lit "/f/x")) ∧
    ¬ RemovesSubtree freeKernel linkedState (lit "/t/l/t") := by
  have hfile : (ioRmtree (volume freeKernel) (lit "/f/x") fileState).1 = -1 := by decide +kernel
  have hlinked : (ioRmtree (volume freeKernel) (lit "/t/l/t") linkedState).1 = 0 := by decide +kernel
  have hleft : bodyAt (ioRmtree (volume freeKernel) (lit "/t/l/t") linkedState).2.sys
      [lit "t", lit "b"] = some .file := by decide +kernel
  refine ⟨⟨hfile, by decide⟩, ⟨hlinked, hleft⟩, ⟨by decide +kernel, by decide, by decide +kernel,
    by decide +kernel⟩, fun h => ?_, fun h => ?_⟩
  · have hzero := h.zero.mpr ⟨.other, by decide⟩
    rw [hfile] at hzero
    exact absurd hzero (by decide)
  · have hremoves := h.removes [lit "t"] (by decide)
    have hgone := hremoves.gone [lit "b"] fun hb =>
      hremoves.zero.mp hlinked (Blocked.up hb)
    rw [bodyAt, show [lit "t", lit "b"] = [lit "t"] ++ [lit "b"] from rfl, hgone] at hleft
    cases hleft

end Cage.Util.Volume
