import Cage.Util.MakesPath
import Cage.Util.VolumeWalk

/-!
`io_rmtree` in a tree with links.
-/

namespace Cage.Util.Volume

/-- The path leads to the directory `e`, whatever stands at its end. -/
structure Leads (k : Kernel) (t : Tree) (path : CStr) (e : Loc) : Prop where
  ne : path ≠ []
  short : path.length < pathMax
  walk : walk t true noGone linksMax (start k.cwd path) (comps path ++ [[dot]]) = .ok e

/-- The tree without what is below a directory. -/
def cleared (t : Tree) (e : Loc) : Tree := without t fun m => decide (e <+: m ∧ m ≠ e)

/-- The path names the entry at `e` of a directory. -/
def Entry (k : Kernel) (t : Tree) (path : CStr) (e : Loc) : Prop :=
  ∃ l name, lastOf k t path = .ok (l, name) ∧ special name = false ∧ l ++ [name] = e

/-- Something on the way down to `e ++ rel` keeps `io_rmtree` from it: a directory that
is not opened or not read to its end, or a joined name that does not fit. -/
def lost (k : Kernel) : CStr → Loc → Loc → Bool
  | _, _, [] => false
  | path, e, c :: rel =>
      k.closed e || k.hides (e ++ [c]) || decide ((path ++ slash :: c).length ≥ pathBuffer) ||
        lost k (path ++ slash :: c) (e ++ [c]) rel

/-- What is at `e ++ rel` cannot be removed, whatever is below it. -/
def Obstacle (k : Kernel) (t : Tree) (path : CStr) (e rel : Loc) : Prop :=
  bodyAt t (e ++ rel) ≠ none ∧
    (k.keeps (e ++ rel) = true ∨ (bodyAt t (e ++ rel) = some .dir ∧ k.closed (e ++ rel) = true) ∨
      lost k path e rel = true ∨ (rel = [] ∧ ¬ Entry k t path e))

/-- Something at or below `e ++ rel` cannot be removed. -/
def Blocked (k : Kernel) (t : Tree) (path : CStr) (e rel : Loc) : Prop :=
  ∃ more, Obstacle k t path e (rel ++ more)

section

variable {k : Kernel} {t t' : Tree} {path c name : CStr} {e l : Loc} {f : Bool} {b : Body}

theorem lookup_cleared (m : Loc) :
    (cleared t e).lookup m = if e <+: m ∧ m ≠ e then none else t.lookup m := by
  unfold cleared
  rw [lookup_without]
  simp only [decide_eq_true_eq]

theorem cleared_sub : Sub (cleared t e) t := by
  intro m i hm
  rw [lookup_cleared] at hm
  split at hm
  · cases hm
  · exact hm

theorem Leads.mono (h : Leads k t' path e) (hsub : Sub t' t) : Leads k t path e :=
  ⟨h.ne, h.short, walk_mono hsub h.walk⟩

theorem find_eq (hne : path ≠ []) (hshort : path.length < pathMax) :
    find k t f path = walk t f noGone linksMax (start k.cwd path) (parts path) := by
  unfold find findWith
  rw [if_neg hne, if_neg (Nat.not_le.mpr hshort)]

theorem find_ok (h : find k t f path = .ok e) : path ≠ [] ∧ path.length < pathMax := by
  unfold find findWith at h
  split at h
  · cases h
  · rename_i hne
    split at h
    · cases h
    · rename_i hshort
      exact ⟨hne, Nat.lt_of_not_le hshort⟩

theorem lastOf_eq (hne : path ≠ []) (hshort : path.length < pathMax) :
    lastOf k t path =
      (walk t true noGone linksMax (start k.cwd path) ((comps path).dropLast ++ [[dot]])).bind
        fun l =>
          if ((comps path).getLast?.getD [dot]).length > nameMax then .error .other
          else .ok (l, (comps path).getLast?.getD [dot]) := by
  unfold lastOf
  rw [if_neg hne, if_neg (Nat.not_le.mpr hshort)]
  cases walk t true noGone linksMax (start k.cwd path) ((comps path).dropLast ++ [[dot]]) <;> rfl

theorem lastOf_ok (h : lastOf k t path = .ok (l, name)) : path ≠ [] ∧ path.length < pathMax := by
  unfold lastOf at h
  split at h
  · cases h
  · rename_i hne
    split at h
    · cases h
    · rename_i hshort
      exact ⟨hne, Nat.lt_of_not_le hshort⟩

/-- The last component of a path, where it has one. -/
theorem lastOf_snoc {cs : Loc} (hne : path ≠ []) (hshort : path.length < pathMax)
    (hcomps : comps path = cs ++ [c]) :
    lastOf k t path =
      (walk t true noGone linksMax (start k.cwd path) (cs ++ [[dot]])).bind fun l =>
        if c.length > nameMax then .error .other else .ok (l, c) := by
  rw [lastOf_eq hne hshort, hcomps, List.dropLast_concat, List.getLast?_concat]
  rfl

/-- A path without a component is spelled with slashes only. -/
theorem slashed_of_comps_nil (hne : path ≠ []) (hcomps : comps path = []) : slashed path = true := by
  by_cases hmem : slash ∈ path
  · obtain ⟨d, a, hsplit⟩ := exists_split_of_mem hmem
    rw [hsplit.slashed, decide_eq_true_eq]
    by_contra ha
    rw [hsplit.comps_name ha] at hcomps
    exact List.concat_ne_nil a (comps d) hcomps
  · rw [comps_piece hmem, if_neg hne] at hcomps
    cases hcomps

theorem lastOf_nil (hne : path ≠ []) (hshort : path.length < pathMax) (hcomps : comps path = []) :
    lastOf k t path = .ok (start k.cwd path, [dot]) := by
  rw [lastOf_eq hne hshort, hcomps, List.dropLast_nil, List.nil_append, walk_here]
  rfl

/-- A lookup ends with the last component, in the directory that has it. -/
theorem find_last (h : lastOf k t path = .ok (l, name)) :
    name.length ≤ nameMax ∧ ∃ m, ∀ f, find k t f path =
      walk t f noGone m l (name :: if slashed path then [[dot]] else []) := by
  obtain ⟨hne, hshort⟩ := lastOf_ok h
  rcases List.eq_nil_or_concat (comps path) with hnil | ⟨cs, c, hcomps⟩
  · rw [lastOf_nil hne hshort hnil] at h
    cases h
    refine ⟨by decide, linksMax, fun f => ?_⟩
    rw [find_eq hne hshort, parts, hnil, slashed_of_comps_nil hne hnil, walk_step (by simp)]
    rfl
  · rw [List.concat_eq_append] at hcomps
    rw [lastOf_snoc hne hshort hcomps] at h
    cases hwalk : walk t true noGone linksMax (start k.cwd path) (cs ++ [[dot]]) with
    | error err =>
      rw [hwalk] at h
      cases h
    | ok m =>
      rw [hwalk] at h
      change (if c.length > nameMax then _ else _) = _ at h
      split at h
      · cases h
      · rename_i hlen
        cases h
        obtain ⟨m, hm⟩ := walk_onward hwalk
        refine ⟨Nat.le_of_not_gt hlen, m, fun f => ?_⟩
        rw [find_eq hne hshort, parts, hcomps, List.append_assoc, List.singleton_append]
        exact hm f _ (List.cons_ne_nil _ _)

theorem find_of_lastOf_error {err : Errno} (h : lastOf k t path = .error err) :
    find k t f path = .error err := by
  by_cases hne : path = []
  · subst hne
    unfold lastOf at h
    rw [if_pos rfl] at h
    cases h
    rfl
  by_cases hshort : path.length < pathMax
  · rcases List.eq_nil_or_concat (comps path) with hnil | ⟨cs, c, hcomps⟩
    · rw [lastOf_nil hne hshort hnil] at h
      cases h
    · rw [List.concat_eq_append] at hcomps
      rw [lastOf_snoc hne hshort hcomps] at h
      rw [find_eq hne hshort, parts, hcomps, List.append_assoc, List.singleton_append]
      cases hwalk : walk t true noGone linksMax (start k.cwd path) (cs ++ [[dot]]) with
      | error e =>
        rw [hwalk] at h
        cases h
        exact walk_fails (List.cons_ne_nil _ _) hwalk
      | ok l =>
        rw [hwalk] at h
        change (if c.length > nameMax then _ else _) = _ at h
        split at h
        · rename_i hlong
          cases h
          obtain ⟨m, hm⟩ := walk_onward hwalk
          have hhere : c ≠ [dot] := by rintro rfl; exact absurd hlong (by decide)
          have hup : c ≠ [dot, dot] := by rintro rfl; exact absurd hlong (by decide)
          rw [hm f _ (List.cons_ne_nil _ _), walk_cons]
          unfold step
          rw [if_neg hhere, if_neg hup, if_pos hlong]
        · cases h
  · unfold lastOf at h
    unfold find findWith
    rw [if_neg hne, if_pos (Nat.le_of_not_lt hshort)] at h ⊢
    cases h
    rfl

theorem exists_last (h : find k t f path = .ok e) : ∃ l name, lastOf k t path = .ok (l, name) := by
  cases hlast : lastOf k t path with
  | error err =>
    rw [find_of_lastOf_error hlast] at h
    cases h
  | ok p => exact ⟨p.1, p.2, rfl⟩

/-- The lookup of an entry that is there; behind a slash a link is followed. -/
theorem find_of_entry (h : lastOf k t path = .ok (l, name)) (hspecial : special name = false)
    (hbody : bodyAt t (l ++ [name]) = some b) (hb : b = .dir ∨ slashed path = false)
    (hlink : ∀ target, b = .link target → f = false) :
    find k t f path = .ok (l ++ [name]) := by
  obtain ⟨hlen, m, hm⟩ := find_last h
  obtain ⟨hhere, hup⟩ := special_eq_false.mp hspecial
  rw [hm]
  cases hslash : slashed path with
  | false => exact walk_single_body hhere hup hlen hbody hlink
  | true =>
    obtain rfl := hb.resolve_right (by simp [hslash])
    exact walk_single_dir hhere hup hlen hbody

theorem find_of_special (h : lastOf k t path = .ok (l, name)) (hspecial : special name = true) :
    ∃ m, find k t f path = .ok m := by
  obtain ⟨-, m, hm⟩ := find_last h
  have htail (l' : Loc) :
      walk t f noGone m l' (if slashed path = true then [[dot]] else []) = .ok l' := by
    split
    · exact walk_here
    · exact walk_nil
  rw [hm]
  unfold special at hspecial
  rw [Bool.or_eq_true, beq_iff_eq, beq_iff_eq] at hspecial
  rcases hspecial with rfl | rfl
  · rw [walk_cons]
    exact ⟨_, htail _⟩
  · rw [walk_cons]
    exact ⟨_, htail _⟩

/-- Behind a slash, a directory is looked for. -/
theorem find_slashed (h : lastOf k t path = .ok (l, name)) (hspecial : special name = false)
    (hslash : slashed path = true) (hbody : bodyAt t (l ++ [name]) = some b) (hb : b ≠ .dir)
    (hlink : ∀ target, b ≠ .link target) : find k t f path = .error .other := by
  obtain ⟨hlen, m, hm⟩ := find_last h
  obtain ⟨hhere, hup⟩ := special_eq_false.mp hspecial
  rw [hm, hslash, if_pos rfl, walk_step (List.cons_ne_nil _ _), step_of_body hhere hup hlen, hbody]
  cases b with
  | dir => exact absurd rfl hb
  | file => rfl
  | link target => exact absurd rfl (hlink target)

theorem find_of_gone (h : lastOf k t path = .ok (l, name)) (hspecial : special name = false)
    (hbody : bodyAt t (l ++ [name]) = none) : find k t f path = .error .enoent := by
  obtain ⟨hlen, m, hm⟩ := find_last h
  obtain ⟨hhere, hup⟩ := special_eq_false.mp hspecial
  rw [hm, walk_cons, step_of_body hhere hup hlen, hbody]

/-- Where `lstat` finds something, the last component is a special one, the entry that
was found, or a link with a slash behind it. -/
theorem last_of_find (h : find k t false path = .ok e) (hlast : lastOf k t path = .ok (l, name)) :
    special name = true ∨ l ++ [name] = e ∧ (slashed path = true → bodyAt t e = some .dir) ∨
      slashed path = true ∧ ∃ target, bodyAt t (l ++ [name]) = some (.link target) := by
  cases hspecial : special name with
  | true => exact Or.inl rfl
  | false =>
    right
    cases hbody : bodyAt t (l ++ [name]) with
    | none =>
      rw [find_of_gone hlast hspecial hbody] at h
      cases h
    | some b =>
      have hfound (hb : b = .dir ∨ slashed path = false) : l ++ [name] = e := by
        rw [find_of_entry hlast hspecial hbody hb fun _ _ => rfl] at h
        exact Except.ok.inj h
      cases hslash : slashed path with
      | false => exact Or.inl ⟨hfound (Or.inr hslash), fun hfalse => by cases hfalse⟩
      | true =>
        cases b with
        | dir =>
          obtain rfl := hfound (Or.inl rfl)
          exact Or.inl ⟨rfl, fun _ => hbody⟩
        | file =>
          rw [find_slashed hlast hspecial hslash hbody (by simp) (by simp)] at h
          cases h
        | link target => exact Or.inr ⟨rfl, target, rfl⟩

theorem start_append (hne : path ≠ []) (q : CStr) : start l (path ++ q) = start l path := by
  cases path with
  | nil => exact absurd rfl hne
  | cons x path => rfl

/-- The path of a name in a directory. -/
theorem split_child (hname : ValidName c) : Split (path ++ slash :: c) path c :=
  ⟨rfl, hname.2.1⟩

theorem comps_child (hname : ValidName c) : comps (path ++ slash :: c) = comps path ++ [c] :=
  (split_child hname).comps_name hname.1

theorem slashed_child (hname : ValidName c) : slashed (path ++ slash :: c) = false := by
  rw [(split_child hname).slashed]
  exact decide_eq_false hname.1

/-- A lookup below the directory goes on from it. -/
theorem Leads.onward (h : Leads k t path e) :
    ∃ m, ∀ q f bs, bs ≠ [] →
      Volume.walk t f noGone linksMax (start k.cwd (path ++ q)) (comps path ++ bs) =
        Volume.walk t f noGone m e bs := by
  obtain ⟨m, hm⟩ := walk_onward h.walk
  refine ⟨m, fun q f bs hbs => ?_⟩
  rw [start_append h.ne]
  exact hm f bs hbs

theorem Leads.child_last (h : Leads k t path e) (hname : ValidName c) (hlen : c.length ≤ nameMax)
    (hfits : (path ++ slash :: c).length < pathMax) :
    lastOf k t (path ++ slash :: c) = .ok (e, c) := by
  obtain ⟨m, hm⟩ := h.onward
  rw [lastOf_snoc (split_child hname).ne_nil hfits (comps_child hname),
    hm _ true _ (List.cons_ne_nil _ _), walk_here]
  exact if_neg (Nat.not_lt.mpr hlen)

theorem Leads.child_entry (h : Leads k t path e) (hname : ValidName c) (hlen : c.length ≤ nameMax)
    (hfits : (path ++ slash :: c).length < pathMax) :
    Entry k t (path ++ slash :: c) (e ++ [c]) :=
  ⟨e, c, h.child_last hname hlen hfits, special_of_valid hname, rfl⟩

theorem Leads.child (h : Leads k t path e) (hname : ValidName c) (hlen : c.length ≤ nameMax)
    (hfits : (path ++ slash :: c).length < pathMax) (hdir : bodyAt t (e ++ [c]) = some .dir) :
    Leads k t (path ++ slash :: c) (e ++ [c]) := by
  refine ⟨(split_child hname).ne_nil, hfits, ?_⟩
  obtain ⟨m, hm⟩ := h.onward
  rw [comps_child hname, List.append_assoc, hm _ true _ (by simp)]
  exact walk_single_dir hname.2.2.1 hname.2.2.2 hlen hdir

/-- What is found for a name in the directory is the entry of that name. -/
theorem Leads.child_find (h : Leads k t path e) (hname : ValidName c)
    (hfind : find k t false (path ++ slash :: c) = .ok l) : l = e ++ [c] := by
  obtain ⟨hne, hshort⟩ := find_ok hfind
  obtain ⟨m, hm⟩ := h.onward
  rw [find_eq hne hshort, parts, comps_child hname, slashed_child hname, if_neg (by simp),
    List.append_nil, hm _ false _ (List.cons_ne_nil _ _), walk_cons] at hfind
  cases hstep : step t e c with
  | into l' =>
    rw [hstep] at hfind
    change Volume.walk t false noGone m l' [] = _ at hfind
    rw [walk_nil] at hfind
    cases hfind
    unfold step at hstep
    rw [if_neg hname.2.2.1, if_neg hname.2.2.2] at hstep
    split_ifs at hstep
    split at hstep <;> cases hstep
    rfl
  | via l' ds | file =>
    rw [hstep] at hfind
    cases hfind
    rfl
  | fails err =>
    rw [hstep] at hfind
    cases hfind

/-- `opendir` opens the directory that the path leads to. -/
theorem leads_of_find (h : find k t true path = .ok e) (hdir : bodyAt t e = some .dir) :
    Leads k t path e := by
  obtain ⟨hne, hshort⟩ := find_ok h
  refine ⟨hne, hshort, ?_⟩
  rw [find_eq hne hshort, parts] at h
  split at h
  · exact h
  · rw [List.append_nil] at h
    exact walk_dot_of_dir h hdir

theorem Leads.find (h : Leads k t path e) : Volume.find k t true path = .ok e := by
  rw [find_eq h.ne h.short, parts]
  split
  · exact h.walk
  · rw [List.append_nil]
    exact walk_of_dot h.walk

/-- Where no link stands at the end, `lstat` looks at what `opendir` opens. -/
theorem find_nofollow (h : find k t true path = .ok e) :
    find k t false path = .ok e ∨
      ∃ m target, find k t false path = .ok m ∧ bodyAt t m = some (.link target) := by
  obtain ⟨hne, hshort⟩ := find_ok h
  rw [find_eq hne hshort] at h ⊢
  exact walk_nofollow h

theorem find_frays (hfrays : Frays t' t) (h : find k t' f path = .ok e)
    (hfile : bodyAt t' e = some .file → bodyAt t e = some .file) : find k t f path = .ok e := by
  obtain ⟨hne, hshort⟩ := find_ok h
  rw [find_eq hne hshort] at h ⊢
  exact walk_frays hfrays h hfile

theorem find_mono (hsub : Sub t' t) (h : find k t' f path = .ok e) : find k t f path = .ok e :=
  find_frays hsub.frays h hsub.bodyAt

theorem lastOf_mono (hsub : Sub t' t) (h : lastOf k t' path = .ok (l, name)) :
    lastOf k t path = .ok (l, name) := by
  obtain ⟨hne, hshort⟩ := lastOf_ok h
  rw [lastOf_eq hne hshort] at h ⊢
  cases hwalk : walk t' true noGone linksMax (start k.cwd path) ((comps path).dropLast ++ [[dot]]) with
  | error err =>
    rw [hwalk] at h
    cases h
  | ok m =>
    rw [hwalk] at h
    rw [walk_mono hsub hwalk]
    exact h

/-- The last component is looked up in a directory of the tree. -/
theorem lastOf_dir (hwf : Wf t) (hhome : bodyAt t k.cwd = some .dir)
    (h : lastOf k t path = .ok (l, name)) :
    walk t true noGone linksMax (start k.cwd path) ((comps path).dropLast ++ [[dot]]) = .ok l ∧
      bodyAt t l = some .dir := by
  obtain ⟨hne, hshort⟩ := lastOf_ok h
  rw [lastOf_eq hne hshort] at h
  cases hwalk : walk t true noGone linksMax (start k.cwd path) ((comps path).dropLast ++ [[dot]]) with
  | error err =>
    rw [hwalk] at h
    cases h
  | ok m =>
    rw [hwalk] at h
    change (if _ then _ else _) = _ at h
    split at h <;> cases h
    exact ⟨rfl, hwf.walk_dot_dir (hwf.dir_of_start hhome path) hwalk⟩

theorem lastOf_frays (hfrays : Frays t' t) (hwf : Wf t') (hhome : bodyAt t' k.cwd = some .dir)
    (h : lastOf k t' path = .ok (l, name)) : lastOf k t path = .ok (l, name) := by
  obtain ⟨hne, hshort⟩ := lastOf_ok h
  obtain ⟨hwalk, hdir⟩ := lastOf_dir hwf hhome h
  rw [lastOf_eq hne hshort, hwalk] at h
  rw [lastOf_eq hne hshort, walk_frays hfrays hwalk (by rw [hdir]; exact nofun)]
  exact h

/-- Where a path leads somewhere, its last component is looked up in a directory. -/
theorem Leads.last (h : Leads k t path e) : ∃ l name, lastOf k t path = .ok (l, name) :=
  exists_last h.find

end

end Cage.Util.Volume
