import Cage.Util.Disk

/-!
What the system calls on a disk do: a call that looks changes no file, one that
changes something changes the entry of its path only, and a lookup depends on
the entries on the way.
-/

namespace Cage.Util

theorem compsFrom_append {a : CStr} (ha : slash ∉ a) (cur s : CStr) :
    compsFrom cur (a ++ s) = compsFrom (cur ++ a) s := by
  induction a generalizing cur with
  | nil => rw [List.nil_append, List.append_nil]
  | cons c a ih =>
    have hc : c ≠ slash := (List.ne_of_not_mem_cons ha).symm
    rw [List.cons_append, compsFrom, if_neg hc, ih (List.not_mem_of_not_mem_cons ha),
      List.append_assoc, List.singleton_append]

theorem compsFrom_slash (cur s : CStr) :
    compsFrom cur (slash :: s) = if cur = [] then compsFrom [] s else cur :: compsFrom [] s := by
  rw [compsFrom, if_pos rfl]

theorem comps_slash (s : CStr) : comps (slash :: s) = comps s := by
  unfold comps
  rw [compsFrom_slash, if_pos rfl]

theorem comps_dropWhile (p : CStr) : comps (p.dropWhile (· = slash)) = comps p := by
  induction p with
  | nil => rfl
  | cons c p ih =>
    by_cases hc : c = slash
    · subst hc
      rw [List.dropWhile_cons_of_pos (by simp), ih, comps_slash]
    · rw [List.dropWhile_cons_of_neg (by simpa using hc)]

theorem renderTail_cons (c : CStr) (l : Loc) :
    renderTail (c :: l) = slash :: (c ++ renderTail l) := List.flatMap_cons

theorem renderTail_append (l m : Loc) : renderTail (l ++ m) = renderTail l ++ renderTail m :=
  List.flatMap_append

theorem compsFrom_renderTail {l : Loc} (hl : ∀ c ∈ l, ValidName c) (cur : CStr) :
    compsFrom cur (renderTail l) = if cur = [] then l else cur :: l := by
  induction l generalizing cur with
  | nil => rfl
  | cons c l ih =>
    have hc := hl c List.mem_cons_self
    have hrest := ih (fun c' hc' => hl c' (List.mem_cons_of_mem c hc')) c
    rw [if_neg hc.1] at hrest
    rw [renderTail_cons, compsFrom_slash, compsFrom_append hc.2.1, List.nil_append, hrest]

theorem comps_str (p : Path) : comps p.str = p.loc := by
  obtain ⟨l, hl⟩ := p
  cases l with
  | nil => rfl
  | cons c l => exact compsFrom_renderTail hl []

theorem str_of_ne_root {p : Path} (h : p.loc ≠ []) : p.str = renderTail p.loc := by
  obtain ⟨l, hl⟩ := p
  cases l with
  | nil => exact absurd rfl h
  | cons c l => rfl

/-- A directory on the way, with a slash behind it, begins the path below it. -/
theorem isPrefixDir_of_prefix {q p : Path} (hq : q.loc ≠ []) (h : q.loc <+: p.loc) :
    p.str = q.str ∨ isPrefixDir q.str p.str = true := by
  obtain ⟨rest, hrest⟩ := h
  have hp : p.loc ≠ [] := by
    rw [← hrest]
    exact List.append_ne_nil_of_left_ne_nil hq rest
  have hstr : p.str = q.str ++ renderTail rest := by
    rw [str_of_ne_root hp, str_of_ne_root hq, ← hrest, renderTail_append]
  cases rest with
  | nil =>
    left
    rw [hstr]
    exact List.append_nil _
  | cons c rest =>
    right
    rw [renderTail_cons] at hstr
    rw [hstr]
    simp [isPrefixDir]

/-- The lookup of `cs` from `l` on sees the entries from `l` to `l ++ cs`. -/
theorem walk_congr {t t' : Tree} {l cs : Loc}
    (h : ∀ m, l <+: m → m <+: l ++ cs → t'.lookup m = t.lookup m) :
    walk t' l cs = walk t l cs := by
  induction cs generalizing l with
  | nil =>
    unfold walk
    rw [h l (List.prefix_refl l) (List.prefix_append l [])]
  | cons c cs ih =>
    have hl := h l (List.prefix_refl l) (List.prefix_append l _)
    have hrest := ih (l := l ++ [c]) fun m hm hm' => by
      refine h m ((List.prefix_append l [c]).trans hm) ?_
      rwa [List.append_assoc, List.singleton_append] at hm'
    unfold walk
    rw [hl, hrest]

theorem find_congr {d d' : Disk} {l : Loc} (hsame : ∀ m, m ≠ l → d'.tree.lookup m = d.tree.lookup m)
    {path : CStr} (hno : ¬l <+: comps path) : d'.find path = d.find path := by
  unfold Disk.find
  have hwalk : walk d'.tree [] (comps path) = walk d.tree [] (comps path) := by
    refine walk_congr fun m _ hm => hsame m fun hml => hno ?_
    rw [List.nil_append] at hm
    rwa [← hml]
  rw [hwalk]

theorem walk_cons (t : Tree) (l : Loc) (c : CStr) (cs : Loc) :
    walk t l (c :: cs) =
      match t.lookup l with
      | none => .error .enoent
      | some .file => .error .other
      | some .dir => if c.length > nameMax then .error .other else walk t (l ++ [c]) cs := rfl

/-- What is missing stays missing when entries go. -/
theorem walk_enoent {t t' : Tree} {l cs : Loc}
    (h : ∀ m, t'.lookup m = t.lookup m ∨ t'.lookup m = none)
    (hwalk : walk t l cs = .error .enoent) : walk t' l cs = .error .enoent := by
  induction cs generalizing l with
  | nil =>
    unfold walk at *
    rcases h l with hl | hl
    · rw [hl]
      exact hwalk
    · rw [hl]
  | cons c cs ih =>
    rw [walk_cons] at *
    rcases h l with hl | hl
    · rw [hl]
      cases hlookup : t.lookup l with
      | none => rfl
      | some n =>
        rw [hlookup] at hwalk
        cases n with
        | file => cases hwalk
        | dir =>
          dsimp only at hwalk ⊢
          split at hwalk
          · cases hwalk
          · rename_i hlen
            rw [if_neg hlen]
            exact ih hwalk
    · rw [hl]

/-- The root is there, and the names of entries are names. -/
structure Disk.Wf (d : Disk) : Prop where
  root : d.tree.lookup [] = some .dir
  names : ∀ l ∈ d.tree.keys, ∀ c ∈ l, ValidName c

theorem tick_tree (d : Disk) : (tick d).2.tree = d.tree := by
  unfold tick
  split <;> rfl

theorem look_tree {A : Type} (failed : A) (f : Disk → A) (d : Disk) :
    (look failed f d).2.tree = d.tree := tick_tree d

/-- A lookup sees the tree only. -/
theorem find_tree {d d' : Disk} (h : d'.tree = d.tree) (path : CStr) :
    d'.find path = d.find path := by
  unfold Disk.find
  rw [h]

theorem entry_loc {d : Disk} {path : CStr} {l : Loc} (h : d.entry path = .ok l) :
    l = comps path := by
  unfold Disk.entry at h
  split at h
  · cases h
  · split at h
    · rename_i hlast
      cases h
      exact (List.getLast?_eq_none_iff.mp hlast).symm
    · split at h
      · cases h
      · cases h
      · split at h
        · cases h
        · cases h
          rfl

/-- What a call on an entry can do: fail and leave the tree, or set the entry. -/
theorem change_cases (path : CStr)
    (act : Tree → Loc → Option Node → Except Errno (Option Node)) (d : Disk) :
    ((change path act d).1 ≠ none ∧ (change path act d).2.tree = d.tree) ∨
      ∃ r, act d.tree (comps path) (d.tree.lookup (comps path)) = .ok r ∧
        (change path act d).1 = none ∧
        (change path act d).2.tree = setEntry d.tree (comps path) r := by
  have htick := tick_tree d
  unfold change
  dsimp only
  split
  · exact Or.inl ⟨by simp, htick⟩
  · split
    · exact Or.inl ⟨by simp, htick⟩
    · rename_i l hentry
      obtain rfl := entry_loc hentry
      split
      · exact Or.inl ⟨by simp, htick⟩
      · rename_i r hact
        rw [htick] at hact
        refine Or.inr ⟨r, hact, rfl, ?_⟩
        dsimp only
        rw [htick]

/-- A rule for one entry that neither removes nor replaces the root. -/
def KeepsRoot (act : Tree → Loc → Option Node → Except Errno (Option Node)) : Prop :=
  ∀ t r, act t [] (some .dir) ≠ .ok r

/-- A rule that only removes. -/
def Removes (act : Tree → Loc → Option Node → Except Errno (Option Node)) : Prop :=
  ∀ t l o n, act t l o ≠ .ok (some n)

theorem KeepsRoot.ne_nil {act : Tree → Loc → Option Node → Except Errno (Option Node)}
    (hact : KeepsRoot act) {d : Disk} (hd : d.Wf) {l : Loc} {r : Option Node}
    (h : act d.tree l (d.tree.lookup l) = .ok r) : l ≠ [] := by
  rintro rfl
  rw [hd.root] at h
  exact hact _ _ h

theorem setEntry_of_ne {t : Tree} {l m : Loc} (h : m ≠ l) (r : Option Node) :
    (setEntry t l r).lookup m = t.lookup m := by
  cases r with
  | none => exact AList.lookup_erase_ne h
  | some n => exact AList.lookup_insert_ne h

theorem mem_keys_setEntry {t : Tree} {l m : Loc} {r : Option Node}
    (h : m ∈ (setEntry t l r).keys) : m ∈ t.keys ∨ m = l ∧ r ≠ none := by
  cases r with
  | none =>
    exact Or.inl (AList.mem_keys.mp (AList.mem_erase.mp (AList.mem_keys.mpr h)).2)
  | some n =>
    rcases (AList.mem_insert t).mp (AList.mem_keys.mpr h) with rfl | h
    · exact Or.inr ⟨rfl, by simp⟩
    · exact Or.inl (AList.mem_keys.mp h)

theorem Disk.Wf.of_tree {d d' : Disk} (h : d.Wf) (htree : d'.tree = d.tree) : d'.Wf where
  root := htree ▸ h.root
  names := htree ▸ h.names

theorem Disk.Wf.setEntry {d d' : Disk} (h : d.Wf) {l : Loc} {r : Option Node} (hl : l ≠ [])
    (hnames : r ≠ none → ∀ c ∈ l, ValidName c) (htree : d'.tree = setEntry d.tree l r) :
    d'.Wf where
  root := by rw [htree, setEntry_of_ne hl.symm, h.root]
  names m hm := by
    rw [htree] at hm
    rcases mem_keys_setEntry hm with hm | ⟨rfl, hr⟩
    · exact h.names m hm
    · exact hnames hr

/-- What a change of one entry leaves. -/
structure Changed (d d' : Disk) (l : Loc) : Prop where
  wf : d'.Wf
  notRoot : l ≠ []
  same : ∀ m, m ≠ l → d'.tree.lookup m = d.tree.lookup m

theorem change_spec {d : Disk} (hd : d.Wf) {path : CStr} (hnames : ∀ c ∈ comps path, ValidName c)
    {act : Tree → Loc → Option Node → Except Errno (Option Node)} (hact : KeepsRoot act) :
    ((change path act d).1 = none → Changed d (change path act d).2 (comps path)) ∧
      ((change path act d).1 ≠ none → (change path act d).2.tree = d.tree) := by
  rcases change_cases path act d with ⟨hfail, htree⟩ | ⟨r, hr, hok, htree⟩
  · exact ⟨fun h => absurd h hfail, fun _ => htree⟩
  · have hne := hact.ne_nil hd hr
    refine ⟨fun _ => ⟨hd.setEntry hne (fun _ => hnames) htree, hne, fun m hm => ?_⟩,
      fun h => absurd hok h⟩
    rw [htree, setEntry_of_ne hm]

/-- A call that removes, on a path of any form: entries may go, the root stays. -/
theorem change_removes {d : Disk} (hd : d.Wf) (path : CStr)
    {act : Tree → Loc → Option Node → Except Errno (Option Node)} (hact : KeepsRoot act)
    (hrem : Removes act) :
    (change path act d).2.Wf ∧
      ∀ m, (change path act d).2.tree.lookup m = d.tree.lookup m ∨
        (change path act d).2.tree.lookup m = none := by
  rcases change_cases path act d with ⟨-, htree⟩ | ⟨r, hr, -, htree⟩
  · exact ⟨hd.of_tree htree, fun m => Or.inl (by rw [htree])⟩
  · cases r with
    | some n => exact absurd hr (hrem _ _ _ n)
    | none =>
      refine ⟨hd.setEntry (hact.ne_nil hd hr) (fun h => absurd rfl h) htree, fun m => ?_⟩
      rw [htree]
      by_cases hm : m = comps path
      · subst hm
        exact Or.inr (AList.lookup_erase _ _)
      · exact Or.inl (setEntry_of_ne hm none)

theorem unlinkEntry_keepsRoot : KeepsRoot unlinkEntry := by
  intro t r h
  cases h

theorem rmdirEntry_keepsRoot : KeepsRoot rmdirEntry := by
  intro t r h
  unfold rmdirEntry at h
  rw [if_pos (Or.inl rfl)] at h
  cases h

theorem mkdirEntry_keepsRoot : KeepsRoot mkdirEntry := by
  intro t r h
  cases h

theorem creatEntry_keepsRoot : KeepsRoot creatEntry := by
  intro t r h
  cases h

theorem unlinkEntry_removes : Removes unlinkEntry := by
  intro t l o n h
  unfold unlinkEntry at h
  split at h <;> cases h

theorem rmdirEntry_removes : Removes rmdirEntry := by
  intro t l o n h
  unfold rmdirEntry at h
  split at h
  · cases h
  · cases h
  · split at h <;> cases h

theorem readNames_cons (name : CStr) (names : List CStr) (d : Disk) :
    readNames (name :: names) d =
      if (tick d).1 then ([], (tick d).2)
      else (name :: (readNames names (tick d).2).1, (readNames names (tick d).2).2) := by
  rcases h : tick d with ⟨bad, d'⟩
  cases bad with
  | true =>
    simp only [readNames, bind, StateT.bind, h]
    rfl
  | false =>
    simp only [readNames, bind, StateT.bind, pure, h]
    rfl

theorem readNames_tree (names : List CStr) (d : Disk) :
    (readNames names d).2.tree = d.tree ∧ ∀ x ∈ (readNames names d).1, x ∈ names := by
  induction names generalizing d with
  | nil => exact ⟨rfl, fun x hx => hx⟩
  | cons name names ih =>
    obtain ⟨htree, hmem⟩ := ih (tick d).2
    rw [readNames_cons]
    split
    · exact ⟨tick_tree d, fun x hx => absurd hx List.not_mem_nil⟩
    · refine ⟨htree.trans (tick_tree d), fun x hx => ?_⟩
      rcases List.mem_cons.mp hx with rfl | hx
      · exact List.mem_cons_self
      · exact List.mem_cons_of_mem name (hmem x hx)

theorem disk_readdir_eq (path : CStr) (d : Disk) :
    disk.readdir path d =
      match (look none (openDir path) d).1 with
      | none => (none, (look none (openDir path) d).2)
      | some names => (some (readNames names (look none (openDir path) d).2).1,
          (readNames names (look none (openDir path) d).2).2) := by
  rcases h : look none (openDir path) d with ⟨names, d'⟩
  cases names with
  | none =>
    simp only [disk, bind, StateT.bind, h]
    rfl
  | some names =>
    simp only [disk, bind, StateT.bind, h]
    rfl

theorem readdir_tree (path : CStr) (d : Disk) : (disk.readdir path d).2.tree = d.tree := by
  have hlook := look_tree none (openDir path) d
  rw [disk_readdir_eq]
  split
  · exact hlook
  · exact (readNames_tree _ _).1.trans hlook

section Children

variable {A : Type} {t : TreeOf A} {l m : Loc} {c : CStr}

theorem eq_concat_of_child (h : (if m.dropLast = l then m.getLast? else none) = some c) :
    m = l ++ [c] := by
  split at h
  · rename_i hl
    rw [← hl]
    exact (List.dropLast_append_getLast? c h).symm
  · cases h

theorem mem_children : c ∈ children t l ↔ t.lookup (l ++ [c]) ≠ none := by
  have hkey (m : Loc) : m ∈ t.keys ↔ t.lookup m ≠ none := by
    rw [Ne, AList.lookup_eq_none, not_not]
    exact AList.mem_keys
  unfold children
  rw [List.mem_filterMap]
  constructor
  · rintro ⟨m, hm, hc⟩
    exact eq_concat_of_child hc ▸ (hkey m).mp hm
  · intro h
    refine ⟨l ++ [c], (hkey _).mpr h, ?_⟩
    rw [List.dropLast_concat, if_pos rfl, List.getLast?_concat]

theorem children_nodup (t : TreeOf A) (l : Loc) : (children t l).Nodup := by
  refine List.Nodup.filterMap ?_ t.keys_nodup
  intro x y c hx hy
  rw [eq_concat_of_child hx, eq_concat_of_child hy]

end Children

theorem children_names {d : Disk} (hd : d.Wf) (l : Loc) : ∀ x ∈ children d.tree l, ValidName x := by
  intro x hx
  obtain ⟨m, hm, hsome⟩ := List.mem_filterMap.mp hx
  exact hd.names m hm x (eq_concat_of_child hsome ▸ List.mem_append_right l List.mem_cons_self)

/-- The names that `readdir` gives are names. -/
theorem readdir_names {d : Disk} (hd : d.Wf) {path : CStr} {names : List CStr}
    (h : (disk.readdir path d).1 = some names) : ∀ x ∈ names, ValidName x := by
  have hopen : ∀ all, (look none (openDir path) d).1 = some all → ∀ x ∈ all, ValidName x := by
    intro all hall
    unfold look at hall
    split at hall
    · cases hall
    · unfold openDir at hall
      split at hall
      · cases hall
        exact children_names (hd.of_tree (tick_tree d)) _
      · cases hall
  rw [disk_readdir_eq] at h
  split at h
  · cases h
  · rename_i all hall
    cases h
    intro x hx
    exact hopen all hall x ((readNames_tree _ _).2 x hx)

end Cage.Util
