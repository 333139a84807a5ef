import Cage.Util.IoCacheSafe
import Cage.Util.MemPathCorrect
import Cage.Util.Volume

/-!
What making a path means, and what `io_mkdir` and `io_mkdir_own` make of it when there
are no links.
-/

namespace Cage.Util.Volume

open Lib.Descent

/-- What a component is, seen from a directory. -/
inductive Piece where
  | here
  | up
  | long
  | missing
  | dir
  | other
  deriving DecidableEq, Repr

def piece (t : Tree) (l : Loc) (c : CStr) : Piece :=
  if c = [dot] then .here
  else if c = [dot, dot] then .up
  else if c.length > nameMax then .long
  else
    match bodyAt t (l ++ [c]) with
    | none => .missing
    | some .dir => .dir
    | some _ => .other

/-- One component further, into a directory that is there. -/
def enterStep (t : Tree) (l : Loc) (c : CStr) : Except Errno Loc :=
  match piece t l c with
  | .here => .ok l
  | .up => .ok l.dropLast
  | .missing => .error .enoent
  | .dir => .ok (l ++ [c])
  | .long | .other => .error .other

/-- The directory that the components lead to. -/
def enter (t : Tree) (l : Loc) (cs : Loc) : Except Errno Loc := cs.foldlM (enterStep t) l

/-- Whose a new directory is when `ids` are asked for; 0:0 asks for nothing. -/
def ownerOf (k : Kernel) (ids : Owner) (l : Loc) : Owner :=
  if ids = rootIds then k.born l else (k.born l).chown ids

/-- One component further; what is missing is made. -/
def makeStep (k : Kernel) (ids : Owner) (s : Tree × Loc) (c : CStr) : Option (Tree × Loc) :=
  let l := s.2 ++ [c]
  match piece s.1 s.2 c with
  | .here => some s
  | .up => some (s.1, s.2.dropLast)
  | .dir => some (s.1, l)
  | .long | .other => none
  | .missing =>
      if k.refuses s.1 l ≠ none then none
      else if ids ≠ rootIds ∧ k.refusesChown l then none
      else some (s.1.insert l { body := .dir, owner := ownerOf k ids l }, l)

/-- The tree in which the path of the components is a directory, and where that is; there
is none if a component is something else or a directory is refused. -/
def make (k : Kernel) (ids : Owner) (t : Tree) (cs : Loc) : Option (Tree × Loc) :=
  cs.foldlM (makeStep k ids) (t, [])

/-- The name behind the last slash, which may be empty. -/
def lastPiece (path : CStr) : CStr := (path.reverse.takeWhile (· ≠ slash)).reverse

/-- A component as a path gives it. -/
def Named (c : CStr) : Prop := c ≠ [] ∧ slash ∉ c

/-- Between the trees, directories were made on the way along the components, and
nothing else happened. -/
def Only (t t' : Tree) (cs : Loc) : Prop :=
  ∀ m, t'.lookup m ≠ t.lookup m →
    t.lookup m = none ∧ bodyAt t' m = some .dir ∧ m ∈ places dots [] cs

section

variable {k : Kernel} {t t' : Tree} {ids : Owner} {l l' cs : Loc} {c : CStr}

theorem enter_snoc : enter t l (cs ++ [c]) = (enter t l cs).bind fun m => enterStep t m c := by
  unfold enter
  rw [List.foldlM_append]
  cases cs.foldlM (enterStep t) l with
  | error e => rfl
  | ok m =>
    change (enterStep t m c >>= pure) = enterStep t m c
    exact bind_pure _

theorem enter_append {ds : Loc} :
    enter t l (cs ++ ds) = (enter t l cs).bind fun m => enter t m ds := List.foldlM_append

/-- A lookup fails because something is missing, or is no directory. -/
theorem enter_error {e : Errno} (h : enter t l cs = .error e) : e = .enoent ∨ e = .other := by
  induction cs generalizing l with
  | nil => cases h
  | cons c cs ih =>
    change (enterStep t l c).bind (fun m => enter t m cs) = .error e at h
    cases hstep : enterStep t l c with
    | ok m =>
      rw [hstep] at h
      exact ih h
    | error e' =>
      rw [hstep] at h
      cases h
      unfold enterStep at hstep
      split at hstep <;> cases hstep
      · exact Or.inl rfl
      · exact Or.inr rfl
      · exact Or.inr rfl

theorem make_snoc :
    make k ids t (cs ++ [c]) = (make k ids t cs).bind fun s => makeStep k ids s c := by
  unfold make
  rw [List.foldlM_append]
  cases cs.foldlM (makeStep k ids) (t, []) with
  | none => rfl
  | some s =>
    change (makeStep k ids s c >>= pure) = makeStep k ids s c
    exact bind_pure _

theorem make_none_front {ds : Loc} (h : make k ids t cs = none) :
    make k ids t (cs ++ ds) = none := by
  unfold make at h ⊢
  rw [List.foldlM_append, h]
  rfl

/-- What can be entered need not be made. -/
theorem makeStep_of_enterStep (h : enterStep t l c = .ok l') :
    makeStep k ids (t, l) c = some (t, l') := by
  unfold enterStep at h
  unfold makeStep
  cases hp : piece t l c <;> rw [hp] at h <;> cases h <;> rfl

theorem makeStep_of_other (h : enterStep t l c = .error .other) :
    makeStep k ids (t, l) c = none := by
  unfold enterStep at h
  unfold makeStep
  cases hp : piece t l c <;> rw [hp] at h <;> cases h

theorem make_of_enter (h : enter t [] cs = .ok l) : make k ids t cs = some (t, l) := by
  induction cs using List.reverseRecOn generalizing l with
  | nil =>
    cases h
    rfl
  | append_singleton cs c ih =>
    rw [enter_snoc] at h
    cases hcs : enter t [] cs with
    | error e =>
      rw [hcs] at h
      cases h
    | ok m =>
      rw [hcs] at h
      rw [make_snoc, ih hcs]
      exact makeStep_of_enterStep h

theorem make_of_other (h : enter t [] cs = .error .other) : make k ids t cs = none := by
  induction cs using List.reverseRecOn with
  | nil => cases h
  | append_singleton cs c ih =>
    rw [enter_snoc] at h
    rw [make_snoc]
    cases hcs : enter t [] cs with
    | error e =>
      rw [hcs] at h
      cases h
      rw [ih hcs]
      rfl
    | ok m =>
      rw [hcs] at h
      rw [make_of_enter hcs]
      exact makeStep_of_other h

theorem piece_eq_here (h : piece t l c = .here) : c = [dot] := by
  unfold piece at h
  split_ifs at h with hhere
  · exact hhere
  · split at h <;> cases h

theorem piece_eq_up (h : piece t l c = .up) : c ≠ [dot] ∧ c = [dot, dot] := by
  unfold piece at h
  split_ifs at h with hhere hup
  · exact ⟨hhere, hup⟩
  · split at h <;> cases h

theorem piece_eq_dir (h : piece t l c = .dir) :
    c ≠ [dot] ∧ c ≠ [dot, dot] ∧ bodyAt t (l ++ [c]) = some .dir := by
  unfold piece at h
  split_ifs at h with hhere hup hlen
  refine ⟨hhere, hup, ?_⟩
  split at h <;> first | assumption | cases h

theorem piece_eq_missing (h : piece t l c = .missing) :
    c ≠ [dot] ∧ c ≠ [dot, dot] ∧ c.length ≤ nameMax ∧ bodyAt t (l ++ [c]) = none := by
  unfold piece at h
  split_ifs at h with hhere hup hlen
  refine ⟨hhere, hup, Nat.le_of_not_gt hlen, ?_⟩
  split at h <;> first | assumption | cases h

theorem move_dots (l : Loc) (c : CStr) :
    move dots l c = if c = [dot] then l else if c = [dot, dot] then l.dropLast else l ++ [c] := rfl

theorem move_plain (hhere : c ≠ [dot]) (hup : c ≠ [dot, dot]) : move dots l c = l ++ [c] := by
  rw [move_dots, if_neg hhere, if_neg hup]

/-- Where a step comes out, by the names alone. -/
theorem move_of_enterStep (h : enterStep t l c = .ok l') : move dots l c = l' := by
  unfold enterStep at h
  cases hp : piece t l c with
  | here =>
    rw [hp] at h
    cases h
    rw [move_dots, if_pos (piece_eq_here hp)]
  | up =>
    rw [hp] at h
    cases h
    rw [move_dots, if_neg (piece_eq_up hp).1, if_pos (piece_eq_up hp).2]
  | dir =>
    rw [hp] at h
    cases h
    exact move_plain (piece_eq_dir hp).1 (piece_eq_dir hp).2.1
  | long | missing | other =>
    rw [hp] at h
    cases h

theorem bodyAt_eq_none : bodyAt t l = none ↔ t.lookup l = none := Option.map_eq_none_iff

theorem Wf.dir_of_enterStep (hwf : Wf t) (hl : bodyAt t l = some .dir)
    (h : enterStep t l c = .ok l') : bodyAt t l' = some .dir := by
  unfold enterStep at h
  cases hp : piece t l c with
  | here =>
    rw [hp] at h
    cases h
    exact hl
  | up =>
    rw [hp] at h
    cases h
    rcases List.eq_nil_or_concat l with rfl | ⟨m, c', rfl⟩
    · exact hl
    · rw [List.concat_eq_append] at hl ⊢
      rw [List.dropLast_concat]
      exact hwf.parent m c' (by rw [hl]; exact Option.some_ne_none _)
  | dir =>
    rw [hp] at h
    cases h
    exact (piece_eq_dir hp).2.2
  | long | missing | other =>
    rw [hp] at h
    cases h

theorem Wf.dir_of_enter (hwf : Wf t) (h : enter t [] cs = .ok l) : bodyAt t l = some .dir := by
  induction cs using List.reverseRecOn generalizing l with
  | nil =>
    cases h
    exact hwf.root
  | append_singleton cs c ih =>
    rw [enter_snoc] at h
    cases hcs : enter t [] cs with
    | error e =>
      rw [hcs] at h
      cases h
    | ok m =>
      rw [hcs] at h
      exact hwf.dir_of_enterStep (ih hcs) h

/-- Every directory of the one tree is one of the other. -/
def Grows (t t' : Tree) : Prop := ∀ m, bodyAt t m = some .dir → bodyAt t' m = some .dir

theorem Grows.enterStep (hgrows : Grows t t') (h : enterStep t l c = .ok l') :
    Volume.enterStep t' l c = .ok l' := by
  unfold Volume.enterStep at h ⊢
  cases hp : piece t l c with
  | here | up =>
    rw [hp] at h
    have hsame : piece t' l c = piece t l c := by
      unfold piece at hp ⊢
      split_ifs at hp ⊢ with h₁ h₂ h₃
      all_goals first | rfl | (split at hp <;> cases hp)
    rw [hsame, hp]
    exact h
  | dir =>
    rw [hp] at h
    have hdir := hgrows _ (piece_eq_dir hp).2.2
    have hsame : piece t' l c = .dir := by
      unfold piece at hp ⊢
      split_ifs at hp ⊢
      rw [hdir]
    rw [hsame]
    exact h
  | long | missing | other =>
    rw [hp] at h
    cases h

theorem Grows.enter (hgrows : Grows t t') (h : enter t [] cs = .ok l) :
    Volume.enter t' [] cs = .ok l := by
  induction cs using List.reverseRecOn generalizing l with
  | nil => exact h
  | append_singleton cs c ih =>
    rw [enter_snoc] at h ⊢
    cases hcs : Volume.enter t [] cs with
    | error e =>
      rw [hcs] at h
      cases h
    | ok m =>
      rw [hcs] at h
      rw [ih hcs]
      exact hgrows.enterStep h

theorem bodyAt_insert {i : Inode} (m : Loc) :
    bodyAt (t.insert l i) m = if m = l then some i.body else bodyAt t m := by
  unfold bodyAt
  split
  · rename_i h
    rw [h, AList.lookup_insert]
    rfl
  · rename_i h
    rw [AList.lookup_insert_ne h]

/-- A directory made where there was nothing. -/
theorem Wf.insert (hwf : Wf t) {o : Owner} (hdir : bodyAt t l = some .dir)
    (hname : ValidName c ∧ c.length ≤ nameMax) :
    Wf (t.insert (l ++ [c]) { body := .dir, owner := o }) where
  root := by
    rw [bodyAt_insert, if_neg (List.concat_ne_nil c l).symm]
    exact hwf.root
  parent m a h := by
    rw [bodyAt_insert] at h ⊢
    split
    · rfl
    · split at h
      · rename_i heq
        rw [(List.append_inj' heq rfl).1, hdir]
      · exact hwf.parent m a h
  names m a h := by
    rw [bodyAt_insert] at h
    split at h
    · rename_i heq
      cases (List.append_inj' heq rfl).2
      exact hname
    · exact hwf.names m a h

/-- Anything put where there was nothing. -/
theorem Wf.insert_new (hwf : Wf t) (hdir : bodyAt t l = some .dir)
    (hname : ValidName c ∧ c.length ≤ nameMax) (hnone : bodyAt t (l ++ [c]) = none) (i : Inode) :
    Wf (t.insert (l ++ [c]) i) where
  root := by
    rw [bodyAt_insert, if_neg (List.concat_ne_nil c l).symm]
    exact hwf.root
  parent m a h := by
    rw [bodyAt_insert] at h ⊢
    split at h
    · rename_i heq
      rw [(List.append_inj' heq rfl).1, hdir]
      exact if_neg fun hself => List.concat_ne_nil c [] (List.append_right_eq_self.mp hself.symm)
    · have hparent := hwf.parent m a h
      split
      · rename_i heq
        rw [heq, hnone] at hparent
        cases hparent
      · exact hparent
  names m a h := by
    rw [bodyAt_insert] at h
    split at h
    · rename_i heq
      cases (List.append_inj' heq rfl).2
      exact hname
    · exact hwf.names m a h

theorem NoLinks.insert (hlinks : NoLinks t) {o : Owner} :
    NoLinks (t.insert l { body := .dir, owner := o }) := by
  intro m target h
  rw [bodyAt_insert] at h
  split at h
  · cases h
  · exact hlinks m target h

theorem Grows.insert {o : Owner} : Grows t (t.insert l { body := .dir, owner := o }) := by
  intro m hm
  rw [bodyAt_insert]
  split
  · rfl
  · exact hm

/-- What a made path is: the tree is one, the path can be entered, and what was missing
on the way is a directory of the owner. -/
structure Made (k : Kernel) (ids : Owner) (t : Tree) (cs : Loc) (t' : Tree) (l : Loc) : Prop where
  wf : Wf t'
  links : NoLinks t'
  entered : enter t' [] cs = .ok l
  resolved : resolve dots [] cs = l
  lookup : ∀ m, t'.lookup m = if t.lookup m = none ∧ m ∈ places dots [] cs then
    some { body := .dir, owner := ownerOf k ids m } else t.lookup m

theorem makeStep_missing (h : piece t l c = .missing) {s : Tree × Loc}
    (hstep : makeStep k ids (t, l) c = some s) :
    k.refuses t (l ++ [c]) = none ∧ (ids = rootIds ∨ k.refusesChown (l ++ [c]) = false) ∧
      s = (t.insert (l ++ [c]) { body := .dir, owner := ownerOf k ids (l ++ [c]) }, l ++ [c]) := by
  unfold makeStep at hstep
  dsimp only at hstep
  rw [h] at hstep
  dsimp only at hstep
  split_ifs at hstep with hrefuses hchown
  refine ⟨of_not_not hrefuses, ?_, (Option.some.inj hstep).symm⟩
  rw [not_and_or, not_not, Bool.not_eq_true] at hchown
  exact hchown

/-- A step makes nothing, or the one directory that was missing. -/
theorem makeStep_cases {s : Tree × Loc} (h : makeStep k ids (t, l) c = some s) :
    (enterStep t l c = .ok s.2 ∧ s.1 = t) ∨
      (piece t l c = .missing ∧
        s = (t.insert (l ++ [c]) { body := .dir, owner := ownerOf k ids (l ++ [c]) }, l ++ [c])) := by
  cases hp : piece t l c with
  | missing => exact Or.inr ⟨rfl, (makeStep_missing hp h).2.2⟩
  | here | up | dir =>
    left
    unfold makeStep at h
    unfold enterStep
    dsimp only at h
    rw [hp] at h ⊢
    cases h
    exact ⟨rfl, rfl⟩
  | long | other =>
    unfold makeStep at h
    dsimp only at h
    rw [hp] at h
    cases h

theorem Named.valid (hname : Named c) (hhere : c ≠ [dot]) (hup : c ≠ [dot, dot]) : ValidName c :=
  ⟨hname.1, hname.2, hhere, hup⟩

theorem made_nil (hwf : Wf t) (hlinks : NoLinks t) : Made k ids t [] t [] where
  wf := hwf
  links := hlinks
  entered := rfl
  resolved := rfl
  lookup m := by
    split
    · rename_i h
      obtain ⟨hnone, hm⟩ := h
      obtain rfl : m = [] := by simpa [places, resolve] using hm
      have hroot := hwf.root
      unfold bodyAt at hroot
      rw [hnone] at hroot
      cases hroot
    · rfl

theorem Made.entered_step {s : Loc} (h : Made k ids t cs t' l)
    (hstep : enterStep t' l c = .ok s) : Made k ids t (cs ++ [c]) t' s where
  wf := h.wf
  links := h.links
  entered := by
    rw [enter_snoc, h.entered]
    exact hstep
  resolved := by
    rw [resolve_append, h.resolved]
    exact move_of_enterStep hstep
  lookup m := by
    rw [h.lookup]
    have hold : t.lookup m = none ∧ m = s → m ∈ places dots [] cs := by
      rintro ⟨hnone, rfl⟩
      have hdir := h.wf.dir_of_enterStep (h.wf.dir_of_enter h.entered) hstep
      by_contra hno
      unfold bodyAt at hdir
      rw [h.lookup, if_neg fun hmem => hno hmem.2, hnone] at hdir
      cases hdir
    have hiff : (t.lookup m = none ∧ m ∈ places dots [] (cs ++ [c])) ↔
        (t.lookup m = none ∧ m ∈ places dots [] cs) := by
      rw [mem_places_snoc, h.resolved, move_of_enterStep hstep]
      constructor
      · rintro ⟨hnone, hmem | hmem⟩
        · exact ⟨hnone, hmem⟩
        · exact ⟨hnone, hold ⟨hnone, hmem⟩⟩
      · rintro ⟨hnone, hmem⟩
        exact ⟨hnone, Or.inl hmem⟩
    simp only [hiff]

theorem Made.made_step (h : Made k ids t cs t' l) (hname : Named c)
    (hmissing : piece t' l c = .missing) :
    Made k ids t (cs ++ [c]) (t'.insert (l ++ [c])
      { body := .dir, owner := ownerOf k ids (l ++ [c]) }) (l ++ [c]) where
  wf := by
    obtain ⟨hhere, hup, hlen, -⟩ := piece_eq_missing hmissing
    exact h.wf.insert (h.wf.dir_of_enter h.entered) ⟨hname.valid hhere hup, hlen⟩
  links := h.links.insert
  entered := by
    obtain ⟨hhere, hup, hlen, -⟩ := piece_eq_missing hmissing
    rw [enter_snoc, Grows.insert.enter h.entered]
    change enterStep _ l c = _
    unfold enterStep piece
    rw [if_neg hhere, if_neg hup, if_neg (Nat.not_lt.mpr hlen), bodyAt_insert, if_pos rfl]
  resolved := by
    obtain ⟨hhere, hup, -, -⟩ := piece_eq_missing hmissing
    rw [resolve_append, h.resolved]
    exact move_plain hhere hup
  lookup m := by
    obtain ⟨hhere, hup, -, hnone⟩ := piece_eq_missing hmissing
    by_cases hm : m = l ++ [c]
    · subst hm
      have hfirst : t.lookup (l ++ [c]) = none := by
        have hgone := bodyAt_eq_none.mp hnone
        rw [h.lookup] at hgone
        split at hgone
        · cases hgone
        · exact hgone
      rw [AList.lookup_insert, if_pos]
      refine ⟨hfirst, (mem_places_snoc dots).mpr (Or.inr ?_)⟩
      rw [h.resolved, move_plain hhere hup]
    · rw [AList.lookup_insert_ne hm, h.lookup]
      have hiff : m ∈ places dots [] (cs ++ [c]) ↔ m ∈ places dots [] cs := by
        rw [mem_places_snoc, h.resolved, move_plain hhere hup, or_iff_left hm]
      simp only [hiff]

theorem made_of_make (hwf : Wf t) (hlinks : NoLinks t) (hnames : ∀ c ∈ cs, Named c)
    (h : make k ids t cs = some (t', l)) : Made k ids t cs t' l := by
  induction cs using List.reverseRecOn generalizing t' l with
  | nil =>
    cases h
    exact made_nil hwf hlinks
  | append_singleton cs c ih =>
    rw [make_snoc] at h
    obtain ⟨s, hs, hstep⟩ := Option.bind_eq_some_iff.mp h
    have hmade := ih (fun a ha => hnames a (List.mem_append_left _ ha)) hs
    rcases makeStep_cases hstep with ⟨hentered, htree⟩ | ⟨hmissing, heq⟩
    · rw [show t' = s.1 from htree]
      exact hmade.entered_step hentered
    · obtain ⟨rfl, rfl⟩ := Prod.mk.inj heq
      exact hmade.made_step (hnames c (by simp)) hmissing

/-- Making a path changes nothing but what was missing on it. -/
theorem Made.only (h : Made k ids t cs t' l) : Only t t' cs := by
  intro m hm
  unfold bodyAt
  rw [h.lookup] at hm ⊢
  split_ifs at hm ⊢ with hnew
  · exact ⟨hnew.1, rfl, hnew.2⟩
  · exact absurd rfl hm

/-- The lookup of the last component, which may be anything. -/
def arrive (t : Tree) (l : Loc) (c : CStr) : Except Errno Loc :=
  match piece t l c with
  | .here => .ok l
  | .up => .ok l.dropLast
  | .long => .error .other
  | .missing => .error .enoent
  | .dir | .other => .ok (l ++ [c])

theorem piece_eq_other (h : piece t l c = .other) (hlinks : NoLinks t) :
    bodyAt t (l ++ [c]) = some .file := by
  unfold piece at h
  split_ifs at h
  cases hbody : bodyAt t (l ++ [c]) with
  | none =>
    rw [hbody] at h
    cases h
  | some b =>
    cases b with
    | file => rfl
    | link target => exact absurd hbody (hlinks _ target)
    | dir =>
      rw [hbody] at h
      cases h

theorem walkWith_step {follow : Bool} {gone : Loc → Except Errno Loc}
    {again : Loc → Loc → Except Errno Loc} :
    walkWith t follow gone again l (c :: cs) =
      if c = [dot] then walkWith t follow gone again l cs
      else if c = [dot, dot] then walkWith t follow gone again l.dropLast cs
      else if c.length > nameMax then .error .other
      else
        match bodyAt t (l ++ [c]) with
        | none => if cs = [] then gone (l ++ [c]) else .error .enoent
        | some .dir => walkWith t follow gone again (l ++ [c]) cs
        | some .file => if cs = [] then .ok (l ++ [c]) else .error .other
        | some (.link target) =>
            if cs = [] ∧ follow = false then .ok (l ++ [c])
            else again (start l target) (parts target ++ cs) := rfl

theorem walkWith_cons (hlinks : NoLinks t) {follow : Bool} {gone : Loc → Except Errno Loc}
    {again : Loc → Loc → Except Errno Loc} :
    walkWith t follow gone again l (c :: cs) =
      match piece t l c with
      | .here => walkWith t follow gone again l cs
      | .up => walkWith t follow gone again l.dropLast cs
      | .long => .error .other
      | .missing => if cs = [] then gone (l ++ [c]) else .error .enoent
      | .dir => walkWith t follow gone again (l ++ [c]) cs
      | .other => if cs = [] then .ok (l ++ [c]) else .error .other := by
  rw [walkWith_step]
  unfold piece
  split_ifs <;> try rfl
  all_goals
    cases hbody : bodyAt t (l ++ [c]) with
    | none => rfl
    | some b =>
      cases b with
      | dir => rfl
      | file => rfl
      | link target => exact absurd hbody (hlinks _ target)

/-- Without links, what is in front of the last components is entered. -/
theorem walkWith_append (hlinks : NoLinks t) {follow : Bool} {gone : Loc → Except Errno Loc}
    {again : Loc → Loc → Except Errno Loc} {ds : Loc} (hds : ds ≠ []) :
    walkWith t follow gone again l (cs ++ ds) =
      (enter t l cs).bind fun m => walkWith t follow gone again m ds := by
  induction cs generalizing l with
  | nil => rfl
  | cons c cs ih =>
    have hne : cs ++ ds ≠ [] := List.append_ne_nil_of_right_ne_nil cs hds
    have henter : enter t l (c :: cs) = (enterStep t l c).bind fun m => enter t m cs := rfl
    rw [List.cons_append, walkWith_cons hlinks, henter]
    unfold enterStep
    cases piece t l c with
    | here | up | dir => exact ih
    | long => rfl
    | missing | other => exact if_neg hne

theorem walk_append (hlinks : NoLinks t) {follow : Bool} {gone : Loc → Except Errno Loc} {n : Nat}
    {ds : Loc} (hds : ds ≠ []) :
    walk t follow gone n l (cs ++ ds) =
      (enter t l cs).bind fun m => walk t follow gone n m ds := by
  cases n <;> exact walkWith_append hlinks hds

theorem walk_dot (hlinks : NoLinks t) {follow : Bool} {gone : Loc → Except Errno Loc} {n : Nat} :
    walk t follow gone n l (cs ++ [[dot]]) = enter t l cs := by
  rw [walk_append hlinks (List.cons_ne_nil _ _)]
  cases enter t l cs with
  | error e => rfl
  | ok m => cases n <;> rfl

theorem walk_single (hlinks : NoLinks t) {follow : Bool} {n : Nat} :
    walk t follow (fun _ => .error .enoent) n l [c] = arrive t l c := by
  unfold arrive
  cases n <;>
  · unfold walk
    rw [walkWith_cons hlinks]
    cases piece t l c <;> rfl

/-- A path as the part in front of the last slash and the piece behind it. -/
structure Split (path d a : CStr) : Prop where
  eq : path = d ++ slash :: a
  piece : slash ∉ a

theorem exists_split_of_mem {path : CStr} (h : slash ∈ path) : ∃ d a, Split path d a := by
  obtain ⟨as, bs, heq, has⟩ := List.eq_append_cons_of_mem (List.mem_reverse.mpr h)
  refine ⟨bs.reverse, as.reverse, ?_, by rwa [List.mem_reverse]⟩
  have hrev := congrArg List.reverse heq
  rwa [List.reverse_reverse, List.reverse_append, List.reverse_cons, List.append_assoc,
    List.singleton_append] at hrev

theorem exists_split {path : CStr} (h : path.head? = some slash) : ∃ d a, Split path d a :=
  exists_split_of_mem (List.mem_of_mem_head? h)

variable {path d a : CStr}

theorem comps_piece (ha : slash ∉ a) : comps a = if a = [] then [] else [a] := by
  have h := compsFrom_append ha [] []
  rw [List.append_nil, List.nil_append] at h
  exact h

theorem Split.comps_eq (h : Split path d a) :
    comps path = comps d ++ if a = [] then [] else [a] := by
  rw [h.eq, comps_append_slash, comps_piece h.piece]

theorem Split.comps_empty (h : Split path d []) : Util.comps path = Util.comps d := by
  rw [h.comps_eq, if_pos rfl, List.append_nil]

theorem Split.comps_name (h : Split path d a) (ha : a ≠ []) :
    Util.comps path = Util.comps d ++ [a] := by
  rw [h.comps_eq, if_neg ha]

theorem Split.slashed (h : Split path d a) : slashed path = decide (a = []) := by
  unfold Volume.slashed
  rw [h.eq]
  rcases List.eq_nil_or_concat a with rfl | ⟨b, x, rfl⟩
  · simp
  · have hx : x ≠ slash := by
      rintro rfl
      exact h.piece (by simp)
    rw [List.concat_eq_append, ← List.cons_append, ← List.append_assoc, List.getLast?_concat]
    simp [hx]

theorem Split.lastPiece (h : Split path d a) : lastPiece path = a := by
  unfold Volume.lastPiece
  have hrev : path.reverse = a.reverse ++ slash :: d.reverse := by
    rw [h.eq, List.reverse_append, List.reverse_cons, List.append_assoc, List.singleton_append]
  have htake : path.reverse.takeWhile (· ≠ slash) = a.reverse := by
    rw [hrev, List.takeWhile_append_of_pos]
    · simp
    · intro x hx
      rw [List.mem_reverse] at hx
      simpa using fun heq : x = slash => h.piece (heq ▸ hx)
  rw [htake, List.reverse_reverse]

theorem named_of_mem_compsFrom {cur s : CStr} (hcur : slash ∉ cur) (hc : c ∈ compsFrom cur s) :
    Named c := by
  induction s generalizing cur with
  | nil =>
    unfold compsFrom at hc
    split at hc
    · cases hc
    · rename_i hne
      rw [List.mem_singleton] at hc
      exact hc ▸ ⟨hne, hcur⟩
  | cons x s ih =>
    unfold compsFrom at hc
    split at hc
    · split at hc
      · exact ih List.not_mem_nil hc
      · rename_i hne
        rcases List.mem_cons.mp hc with rfl | hc
        · exact ⟨hne, hcur⟩
        · exact ih List.not_mem_nil hc
    · rename_i hx
      refine ih (fun hmem => ?_) hc
      rcases List.mem_append.mp hmem with hmem | hmem
      · exact hcur hmem
      · exact hx (List.mem_singleton.mp hmem).symm

theorem named_of_mem_comps (hc : c ∈ comps path) : Named c :=
  named_of_mem_compsFrom List.not_mem_nil hc

/-- An absolute path that the kernel takes. -/
structure Absolute (path : CStr) : Prop where
  head : path.head? = some slash
  short : path.length < pathMax

theorem Absolute.ne_nil (habs : Absolute path) : path ≠ [] := by
  rintro rfl
  cases habs.head

theorem Split.length (h : Split path d a) : path.length = d.length + (a.length + 1) := by
  rw [h.eq, List.length_append, List.length_cons]

theorem Split.ne_nil (h : Split path d a) : path ≠ [] := by
  rw [h.eq]
  exact List.append_ne_nil_of_right_ne_nil d (List.cons_ne_nil _ _)

theorem Split.front (h : Split path d a) : Util.comps d <+: Util.comps path := by
  rw [h.comps_eq]
  exact List.prefix_append _ _

theorem Absolute.front (habs : Absolute path) (h : Split path d a) (hd : d ≠ []) : Absolute d where
  head := by
    have hhead := habs.head
    rwa [h.eq, List.head?_append_of_ne_nil _ hd] at hhead
  short := by
    have hlen := h.length
    have hshort := habs.short
    omega

theorem Absolute.find (habs : Absolute path) (h : Split path d a) (hlinks : NoLinks t)
    (follow : Bool) :
    find k t follow path =
      (enter t [] (comps d)).bind fun l => if a = [] then .ok l else arrive t l a := by
  unfold Volume.find findWith
  rw [if_neg habs.ne_nil, if_neg (Nat.not_le.mpr habs.short), start, if_pos habs.head, parts,
    h.slashed]
  by_cases ha : a = []
  · subst ha
    rw [h.comps_empty]
    simp only [decide_true, if_true]
    rw [walk_dot hlinks]
    cases enter t [] (comps d) <;> rfl
  · rw [h.comps_name ha]
    simp only [ha, decide_false, Bool.false_eq_true, if_false, List.append_nil]
    rw [walk_append hlinks (List.cons_ne_nil _ _)]
    simp only [walk_single hlinks]

theorem Absolute.lastOf (habs : Absolute path) (hlinks : NoLinks t) :
    lastOf k t path =
      (enter t [] (comps path).dropLast).bind fun l =>
        if ((comps path).getLast?.getD [dot]).length > nameMax then .error .other
        else .ok (l, (comps path).getLast?.getD [dot]) := by
  unfold Volume.lastOf
  rw [if_neg habs.ne_nil, if_neg (Nat.not_le.mpr habs.short), start, if_pos habs.head,
    walk_dot hlinks]
  cases enter t [] (comps path).dropLast <;> rfl

theorem mkdirAt_error (habs : Absolute path) (hlinks : NoLinks t) {e : Errno}
    (h : enter t [] (comps path).dropLast = .error e) : mkdirAt k path t = (some e, t) := by
  unfold mkdirAt
  rw [habs.lastOf hlinks, h]
  rfl

/-- `mkdir` of a component in a directory that is there. -/
theorem mkdirAt_snoc (habs : Absolute path) (hlinks : NoLinks t) (hcomps : comps path = cs ++ [c])
    (h : enter t [] cs = .ok l) :
    mkdirAt k path t =
      match piece t l c with
      | .long => (some .other, t)
      | .missing =>
          match k.refuses t (l ++ [c]) with
          | some e => (some e, t)
          | none =>
              (none, t.insert (l ++ [c]) { body := .dir, owner := k.born (l ++ [c]) })
      | _ => (some .eexist, t) := by
  unfold mkdirAt
  rw [habs.lastOf hlinks, hcomps, List.dropLast_concat, List.getLast?_concat, h]
  have hlast : (Except.ok l : Except Errno Loc).bind (fun l =>
      if ((some c).getD [dot]).length > nameMax then .error .other
      else .ok (l, (some c).getD [dot])) =
      if c.length > nameMax then .error .other else .ok (l, c) := rfl
  rw [hlast]
  unfold piece special
  by_cases hhere : c = [dot]
  · subst hhere
    rfl
  · by_cases hup : c = [dot, dot]
    · subst hup
      rfl
    · rw [if_neg hhere, if_neg hup]
      by_cases hlen : c.length > nameMax
      · rw [if_pos hlen, if_pos hlen]
      · rw [if_neg hlen, if_neg hlen]
        unfold bodyAt
        cases hi : t.lookup (l ++ [c]) with
        | none =>
          cases hrefuses : k.refuses t (l ++ [c]) <;> simp [hhere, hup, hi, hrefuses]
        | some i => cases hb : i.body <;> simp [hhere, hup, hi, hb]

theorem mkdirAt_entered (habs : Absolute path) (hlinks : NoLinks t)
    (h : enter t [] (comps path) = .ok l) : mkdirAt k path t = (some .eexist, t) := by
  rcases List.eq_nil_or_concat (comps path) with hnil | ⟨cs, c, hcomps⟩
  · unfold mkdirAt
    rw [habs.lastOf hlinks, hnil]
    rfl
  · rw [List.concat_eq_append] at hcomps
    rw [hcomps, enter_snoc] at h
    cases hcs : enter t [] cs with
    | error e =>
      rw [hcs] at h
      cases h
    | ok m =>
      rw [hcs] at h
      rw [mkdirAt_snoc habs hlinks hcomps hcs]
      change enterStep t m c = .ok l at h
      unfold enterStep at h
      cases hp : piece t m c with
      | here | up | dir | other => rfl
      | long | missing =>
        rw [hp] at h
        cases h

theorem lookKind_of_find {follow : Bool} {b : Body} (hfind : find k t follow path = .ok l)
    (hbody : bodyAt t l = some b) : lookKind k t follow path = .ok b.kind := by
  obtain ⟨i, hi, hb⟩ := Option.map_eq_some_iff.mp hbody
  unfold lookKind lookInode
  rw [hfind]
  dsimp only
  rw [hi, ← hb]
  rfl

theorem lookKind_of_error {follow : Bool} {e : Errno} (hfind : find k t follow path = .error e) :
    lookKind k t follow path = .error e := by
  unfold lookKind lookInode
  rw [hfind]
  rfl

/-- `stat` finds a directory where the path can be entered, and nowhere else. -/
theorem lookKind_dir_iff (habs : Absolute path) (hwf : Wf t) (hlinks : NoLinks t) :
    lookKind k t true path = .ok .dir ↔ ∃ l, enter t [] (comps path) = .ok l := by
  obtain ⟨d, a, hsplit⟩ := exists_split habs.head
  have hfind := habs.find (k := k) hsplit hlinks true
  cases hd : enter t [] (comps d) with
  | error e =>
    rw [hd] at hfind
    rw [lookKind_of_error hfind, hsplit.comps_eq]
    refine iff_of_false (fun h => by cases h) ?_
    rintro ⟨l, hl⟩
    split at hl
    · rw [List.append_nil, hd] at hl
      cases hl
    · rw [enter_snoc, hd] at hl
      cases hl
  | ok m =>
    rw [hd] at hfind
    change find k t true path = if a = [] then .ok m else arrive t m a at hfind
    by_cases ha : a = []
    · subst ha
      rw [if_pos rfl] at hfind
      rw [lookKind_of_find hfind (hwf.dir_of_enter hd), hsplit.comps_empty]
      exact iff_of_true rfl ⟨m, hd⟩
    · rw [if_neg ha] at hfind
      have henter : enter t [] (comps path) = enterStep t m a := by
        rw [hsplit.comps_name ha, enter_snoc, hd]
        rfl
      rw [henter]
      unfold arrive at hfind
      have hdir := hwf.dir_of_enter hd
      cases hp : piece t m a with
      | here | up | dir =>
        have hstep : ∃ l, enterStep t m a = .ok l ∧ find k t true path = .ok l := by
          unfold enterStep
          rw [hp] at hfind ⊢
          exact ⟨_, rfl, hfind⟩
        obtain ⟨l, hstep, hfound⟩ := hstep
        rw [lookKind_of_find hfound (hwf.dir_of_enterStep hdir hstep)]
        exact iff_of_true rfl ⟨l, hstep⟩
      | long | missing =>
        rw [hp] at hfind
        rw [lookKind_of_error hfind]
        unfold enterStep
        rw [hp]
        refine iff_of_false (fun h => by cases h) fun ⟨_, h⟩ => by cases h
      | other =>
        rw [hp] at hfind
        rw [lookKind_of_find hfind (piece_eq_other hp hlinks)]
        unfold enterStep
        rw [hp]
        refine iff_of_false (fun h => by cases h) fun ⟨_, h⟩ => by cases h

end

end Cage.Util.Volume
