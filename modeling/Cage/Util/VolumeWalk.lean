import Cage.Util.Volume

/-!
Lookups in a tree with links: in a smaller tree they find the same or fail, and a
lookup goes on from where its front has led.
-/

namespace Cage.Util.Volume

/-- What is in the one tree is in the other, and the same there. -/
def Sub (t' t : Tree) : Prop := ∀ m i, t'.lookup m = some i → t.lookup m = some i

/-- The directories and links of the one tree are in the other; what else there is in it
are files. -/
def Frays (t' t : Tree) : Prop := ∀ m b, bodyAt t' m = some b → b ≠ .file → bodyAt t m = some b

/-- Nothing is found behind a missing last component. -/
abbrev noGone : Loc → Except Errno Loc := fun _ => .error .enoent

/-- The tree without the places that `drop` names. -/
def without (t : Tree) (drop : Loc → Bool) : Tree :=
  (t.keys.filter drop).foldl (fun t m => t.erase m) t

/-- What a component leads to: into a directory, on along a link's target, to a file. -/
inductive Step where
  | into (l : Loc)
  | via (l : Loc) (parts : Loc)
  | file
  | fails (e : Errno)

section

variable {t t' : Tree} {f : Bool} {cur l as bs cs : Loc} {n : Nat}

theorem Sub.refl (t : Tree) : Sub t t := fun _ _ h => h

theorem Sub.trans {t'' : Tree} (h : Sub t'' t') (h' : Sub t' t) : Sub t'' t :=
  fun m i hi => h' m i (h m i hi)

theorem Sub.bodyAt {b : Body} (h : Sub t' t) (hb : bodyAt t' l = some b) :
    Volume.bodyAt t l = some b := by
  obtain ⟨i, hi, rfl⟩ := Option.map_eq_some_iff.mp hb
  exact Option.map_eq_some_iff.mpr ⟨i, h l i hi, rfl⟩

theorem Sub.frays (h : Sub t' t) : Frays t' t := fun _ _ hb _ => h.bodyAt hb

theorem Sub.none (h : Sub t' t) {m : Loc} (hm : t.lookup m = none) : t'.lookup m = none := by
  cases hm' : t'.lookup m with
  | none => rfl
  | some i =>
    rw [h m i hm'] at hm
    cases hm

theorem lookup_foldl_erase (ms : List Loc) (t : Tree) (m : Loc) :
    (ms.foldl (fun t m => t.erase m) t).lookup m = if m ∈ ms then none else t.lookup m := by
  induction ms generalizing t with
  | nil => rfl
  | cons a ms ih =>
    rw [List.foldl_cons, ih]
    by_cases hm : m ∈ ms
    · rw [if_pos hm, if_pos (List.mem_cons_of_mem a hm)]
    · rw [if_neg hm]
      by_cases ha : m = a
      · rw [ha, AList.lookup_erase, if_pos List.mem_cons_self]
      · rw [AList.lookup_erase_ne ha, if_neg]
        simp [ha, hm]

theorem lookup_without (drop : Loc → Bool) (m : Loc) :
    (without t drop).lookup m = if drop m then none else t.lookup m := by
  unfold without
  rw [lookup_foldl_erase]
  by_cases hkey : m ∈ t.keys
  · simp [List.mem_filter, hkey]
  · have hnone : t.lookup m = none := by
      rw [AList.lookup_eq_none, AList.mem_keys]
      exact hkey
    rw [hnone]
    simp

/-- What goes on behind a link, with one less to follow. -/
def next (t : Tree) (f : Bool) (gone : Loc → Except Errno Loc) : Nat → Loc → Loc → Except Errno Loc
  | 0 => fun _ _ => .error .other
  | n + 1 => walk t f gone n

theorem walk_nil : walk t f noGone n cur [] = .ok cur := by
  cases n <;> rfl

def step (t : Tree) (cur : Loc) (c : CStr) : Step :=
  if c = [dot] then .into cur
  else if c = [dot, dot] then .into cur.dropLast
  else if c.length > nameMax then .fails .other
  else
    match Volume.bodyAt t (cur ++ [c]) with
    | none => .fails .enoent
    | some .dir => .into (cur ++ [c])
    | some .file => .file
    | some (.link target) => .via (start cur target) (parts target)

theorem walk_cons (c : CStr) :
    walk t f noGone n cur (c :: cs) =
      match step t cur c with
      | .into l => walk t f noGone n l cs
      | .via l ds =>
          if cs = [] ∧ f = false then .ok (cur ++ [c]) else next t f noGone n l (ds ++ cs)
      | .file => if cs = [] then .ok (cur ++ [c]) else .error .other
      | .fails e => .error e := by
  cases n <;>
  · unfold walk step
    rw [walkWith]
    by_cases hhere : c = [dot]
    · rw [if_pos hhere, if_pos hhere]
    · rw [if_neg hhere, if_neg hhere]
      by_cases hup : c = [dot, dot]
      · rw [if_pos hup, if_pos hup]
      · rw [if_neg hup, if_neg hup]
        by_cases hlen : c.length > nameMax
        · rw [if_pos hlen, if_pos hlen]
        · rw [if_neg hlen, if_neg hlen]
          cases Volume.bodyAt t (cur ++ [c]) with
          | none => exact ite_self _
          | some b => cases b <;> rfl

theorem bodyAt_of_file {c : CStr} (h : step t cur c = .file) :
    bodyAt t (cur ++ [c]) = some .file := by
  unfold step at h
  split_ifs at h
  split at h <;> first | assumption | cases h

theorem Frays.step (h : Frays t' t) {c : CStr} :
    Volume.step t' cur c = Volume.step t cur c ∨ Volume.step t' cur c = .fails .enoent ∨
      Volume.step t' cur c = .file := by
  unfold Volume.step
  split_ifs
  · exact Or.inl rfl
  · exact Or.inl rfl
  · exact Or.inl rfl
  · cases hbody : Volume.bodyAt t' (cur ++ [c]) with
    | none => exact Or.inr (Or.inl rfl)
    | some b =>
      cases b with
      | file => exact Or.inr (Or.inr rfl)
      | dir | link target =>
        rw [h _ _ hbody (by simp)]
        exact Or.inl rfl

/-- What a lookup finds in the frayed tree, it finds in the other. -/
theorem walk_frays (h : Frays t' t) (hwalk : walk t' f noGone n cur cs = .ok l)
    (hfile : Volume.bodyAt t' l = some .file → Volume.bodyAt t l = some .file) :
    walk t f noGone n cur cs = .ok l := by
  induction n generalizing cur cs l with
  | zero | succ n ihn =>
    induction cs generalizing cur with
    | nil =>
      rw [walk_nil] at hwalk ⊢
      exact hwalk
    | cons c cs ih =>
      rw [walk_cons] at hwalk ⊢
      have hcase : Volume.step t' cur c = Volume.step t cur c ∨
          Volume.step t' cur c = .fails .enoent ∨ Volume.step t' cur c = .file := h.step
      rcases hcase with hstep | hstep | hstep
      · rw [hstep] at hwalk
        cases hs : Volume.step t cur c with
        | into l' =>
          rw [hs] at hwalk
          exact ih hwalk
        | file | fails e =>
          rw [hs] at hwalk
          exact hwalk
        | via l' ds =>
          rw [hs] at hwalk
          dsimp only at hwalk ⊢
          split
          · rename_i hlast
            rw [if_pos hlast] at hwalk
            exact hwalk
          · rename_i hlast
            rw [if_neg hlast] at hwalk
            first
            | exact ihn hwalk hfile
            | exact hwalk
      · rw [hstep] at hwalk
        cases hwalk
      · have hbody : Volume.bodyAt t' (cur ++ [c]) = some .file := bodyAt_of_file hstep
        rw [hstep] at hwalk
        dsimp only at hwalk
        split at hwalk
        · rename_i hlast
          cases hwalk
          have hstep' : Volume.step t cur c = .file := by
            unfold Volume.step at hstep ⊢
            split_ifs at hstep ⊢
            rw [hfile hbody]
          rw [hstep']
          exact if_pos hlast
        · cases hwalk

/-- What is found in the smaller tree is found in the larger one. -/
theorem walk_mono (h : Sub t' t) (hwalk : walk t' f noGone n cur cs = .ok l) :
    walk t f noGone n cur cs = .ok l :=
  walk_frays h.frays hwalk h.bodyAt

theorem walk_step {c : CStr} (hcs : cs ≠ []) :
    walk t f noGone n cur (c :: cs) =
      match step t cur c with
      | .into l => walk t f noGone n l cs
      | .via l ds => next t f noGone n l (ds ++ cs)
      | .file => .error .other
      | .fails e => .error e := by
  rw [walk_cons]
  simp only [hcs, false_and, if_false]

theorem step_of_body {c : CStr} (hhere : c ≠ [dot]) (hup : c ≠ [dot, dot])
    (hlen : c.length ≤ nameMax) :
    step t cur c =
      match bodyAt t (cur ++ [c]) with
      | none => .fails .enoent
      | some .dir => .into (cur ++ [c])
      | some .file => .file
      | some (.link target) => .via (start cur target) (parts target) := by
  unfold step
  rw [if_neg hhere, if_neg hup, if_neg (Nat.not_lt.mpr hlen)]

theorem walk_here : walk t f noGone n cur [[dot]] = .ok cur := by
  rw [walk_cons]
  exact walk_nil

theorem concat_dot_ne_nil : as ++ [[dot]] ≠ ([] : Loc) := List.concat_ne_nil [dot] as

/-- A lookup goes on where its front has led, with the links that are left. -/
theorem walk_onward (hwalk : walk t true noGone n cur (as ++ [[dot]]) = .ok l) :
    ∃ m, ∀ f bs, bs ≠ [] → walk t f noGone n cur (as ++ bs) = walk t f noGone m l bs := by
  induction n generalizing cur as l with
  | zero | succ n ihn =>
    induction as generalizing cur with
    | nil =>
      rw [List.nil_append, walk_here] at hwalk
      cases hwalk
      exact ⟨_, fun _ _ _ => rfl⟩
    | cons c as ih =>
      have hne {bs : Loc} (hbs : bs ≠ []) : as ++ bs ≠ [] := List.append_ne_nil_of_right_ne_nil as hbs
      rw [List.cons_append, walk_step concat_dot_ne_nil] at hwalk
      simp only [List.cons_append]
      cases hstep : step t cur c with
      | into l' =>
        rw [hstep] at hwalk
        obtain ⟨m, hm⟩ := ih hwalk
        refine ⟨m, fun f bs hbs => ?_⟩
        rw [walk_step (hne hbs), hstep]
        exact hm f bs hbs
      | file | fails e =>
        rw [hstep] at hwalk
        cases hwalk
      | via l' ds =>
        rw [hstep] at hwalk
        first
        | cases hwalk
        | dsimp only at hwalk
          rw [← List.append_assoc] at hwalk
          obtain ⟨m, hm⟩ := ihn hwalk
          refine ⟨m, fun f bs hbs => ?_⟩
          rw [walk_step (hne hbs), hstep]
          dsimp only
          rw [← List.append_assoc]
          exact hm f bs hbs

/-- Where the front fails, so does the lookup. -/
theorem walk_fails {e : Errno} (hbs : bs ≠ [])
    (hwalk : walk t true noGone n cur (as ++ [[dot]]) = .error e) :
    walk t f noGone n cur (as ++ bs) = .error e := by
  induction n generalizing cur as with
  | zero | succ n ihn =>
    induction as generalizing cur with
    | nil =>
      rw [List.nil_append, walk_here] at hwalk
      cases hwalk
    | cons c as ih =>
      rw [List.cons_append, walk_step concat_dot_ne_nil] at hwalk
      rw [List.cons_append, walk_step (List.append_ne_nil_of_right_ne_nil as hbs)]
      cases hstep : step t cur c with
      | into l' =>
        rw [hstep] at hwalk
        exact ih hwalk
      | file | fails e =>
        rw [hstep] at hwalk
        exact hwalk
      | via l' ds =>
        rw [hstep] at hwalk
        first
        | exact hwalk
        | dsimp only at hwalk ⊢
          rw [← List.append_assoc] at hwalk ⊢
          exact ihn hwalk

/-- A slash behind a path that leads to a directory changes nothing. -/
theorem walk_dot_of_dir (hwalk : walk t true noGone n cur cs = .ok l)
    (hdir : bodyAt t l = some .dir) : walk t true noGone n cur (cs ++ [[dot]]) = .ok l := by
  induction n generalizing cur cs with
  | zero | succ n ihn =>
    induction cs generalizing cur with
    | nil =>
      rw [walk_nil] at hwalk
      rw [List.nil_append, walk_here, hwalk]
    | cons c cs ih =>
      rw [List.cons_append, walk_step concat_dot_ne_nil]
      rw [walk_cons] at hwalk
      cases hstep : step t cur c with
      | into l' =>
        rw [hstep] at hwalk
        exact ih hwalk
      | fails e =>
        rw [hstep] at hwalk
        cases hwalk
      | file =>
        rw [hstep] at hwalk
        dsimp only at hwalk
        split at hwalk
        · cases hwalk
          rw [bodyAt_of_file hstep] at hdir
          cases hdir
        · cases hwalk
      | via l' ds =>
        rw [hstep] at hwalk
        dsimp only at hwalk ⊢
        rw [if_neg (by simp)] at hwalk
        first
        | cases hwalk
        | rw [← List.append_assoc]
          exact ihn hwalk

/-- With a directory asked for, links are followed in any case. -/
theorem walk_dot_follow : walk t f noGone n cur (cs ++ [[dot]]) = walk t true noGone n cur (cs ++ [[dot]]) := by
  cases hwalk : walk t true noGone n cur (cs ++ [[dot]]) with
  | error e => exact walk_fails (List.cons_ne_nil _ _) hwalk
  | ok l =>
    obtain ⟨m, hm⟩ := walk_onward hwalk
    rw [hm f _ (List.cons_ne_nil _ _), walk_here]

/-- The same, the other way round. -/
theorem walk_of_dot (hwalk : walk t true noGone n cur (cs ++ [[dot]]) = .ok l) :
    walk t true noGone n cur cs = .ok l := by
  induction n generalizing cur cs with
  | zero | succ n ihn =>
    induction cs generalizing cur with
    | nil =>
      rw [List.nil_append, walk_here] at hwalk
      rw [walk_nil, hwalk]
    | cons c cs ih =>
      rw [List.cons_append, walk_step concat_dot_ne_nil] at hwalk
      rw [walk_cons]
      cases hstep : step t cur c with
      | into l' =>
        rw [hstep] at hwalk
        exact ih hwalk
      | file | fails e =>
        rw [hstep] at hwalk
        cases hwalk
      | via l' ds =>
        rw [hstep] at hwalk
        dsimp only at hwalk ⊢
        rw [if_neg (by simp)]
        first
        | cases hwalk
        | rw [← List.append_assoc] at hwalk
          exact ihn hwalk

theorem bodyAt_of_via {c : CStr} {ds : Loc} (h : step t cur c = .via l ds) :
    ∃ target, bodyAt t (cur ++ [c]) = some (.link target) ∧ l = start cur target := by
  unfold step at h
  split_ifs at h
  split at h <;> cases h
  exact ⟨_, ‹_›, rfl⟩

/-- A step goes into a directory of the tree. -/
theorem Wf.dir_of_into (hwf : Wf t) (hcur : bodyAt t cur = some .dir) {c : CStr}
    (h : step t cur c = .into l) : bodyAt t l = some .dir := by
  unfold step at h
  split_ifs at h
  · cases h
    exact hcur
  · cases h
    rcases List.eq_nil_or_concat cur with rfl | ⟨m, x, rfl⟩
    · exact hcur
    · rw [List.concat_eq_append] at hcur ⊢
      rw [List.dropLast_concat]
      exact hwf.parent m x (by rw [hcur]; exact Option.some_ne_none _)
  · split at h <;> cases h
    assumption

theorem Wf.dir_of_start (hwf : Wf t) (hcur : bodyAt t cur = some .dir) (target : CStr) :
    bodyAt t (start cur target) = some .dir := by
  unfold start
  split
  · exact hwf.root
  · exact hcur

/-- What is looked up from a directory of the tree on is in the tree. -/
theorem Wf.walk_there (hwf : Wf t) (hcur : bodyAt t cur = some .dir)
    (hwalk : walk t f noGone n cur cs = .ok l) : bodyAt t l ≠ none := by
  induction n generalizing cur cs with
  | zero | succ n ihn =>
    induction cs generalizing cur with
    | nil =>
      rw [walk_nil] at hwalk
      cases hwalk
      rw [hcur]
      exact Option.some_ne_none _
    | cons c cs ih =>
      rw [walk_cons] at hwalk
      cases hstep : step t cur c with
      | into l' =>
        rw [hstep] at hwalk
        exact ih (hwf.dir_of_into hcur hstep) hwalk
      | fails e =>
        rw [hstep] at hwalk
        cases hwalk
      | file =>
        rw [hstep] at hwalk
        dsimp only at hwalk
        split at hwalk <;> cases hwalk
        rw [bodyAt_of_file hstep]
        exact Option.some_ne_none _
      | via l' ds =>
        obtain ⟨target, hlink, rfl⟩ := bodyAt_of_via hstep
        rw [hstep] at hwalk
        dsimp only at hwalk
        split at hwalk
        · cases hwalk
          rw [hlink]
          exact Option.some_ne_none _
        · first
          | cases hwalk
          | exact ihn (hwf.dir_of_start hcur target) hwalk

/-- A lookup that asks for a directory finds one. -/
theorem Wf.walk_dot_dir (hwf : Wf t) (hcur : bodyAt t cur = some .dir)
    (hwalk : walk t true noGone n cur (cs ++ [[dot]]) = .ok l) : bodyAt t l = some .dir := by
  induction n generalizing cur cs with
  | zero | succ n ihn =>
    induction cs generalizing cur with
    | nil =>
      rw [List.nil_append, walk_here] at hwalk
      cases hwalk
      exact hcur
    | cons c cs ih =>
      rw [List.cons_append, walk_step concat_dot_ne_nil] at hwalk
      cases hstep : step t cur c with
      | into l' =>
        rw [hstep] at hwalk
        exact ih (hwf.dir_of_into hcur hstep) hwalk
      | file | fails e =>
        rw [hstep] at hwalk
        cases hwalk
      | via l' ds =>
        obtain ⟨target, -, rfl⟩ := bodyAt_of_via hstep
        rw [hstep] at hwalk
        first
        | cases hwalk
        | dsimp only at hwalk
          rw [← List.append_assoc] at hwalk
          exact ihn (hwf.dir_of_start hcur target) hwalk

/-- What is found behind links is found without them too, or a link stands there. -/
theorem walk_nofollow (hwalk : walk t true noGone n cur cs = .ok l) :
    walk t false noGone n cur cs = .ok l ∨
      ∃ m target, walk t false noGone n cur cs = .ok m ∧ bodyAt t m = some (.link target) := by
  induction n generalizing cur cs with
  | zero | succ n ihn =>
    induction cs generalizing cur with
    | nil =>
      left
      rw [walk_nil] at hwalk ⊢
      exact hwalk
    | cons c cs ih =>
      rw [walk_cons] at hwalk ⊢
      cases hstep : step t cur c with
      | into l' =>
        rw [hstep] at hwalk
        exact ih hwalk
      | file | fails e =>
        rw [hstep] at hwalk
        exact Or.inl hwalk
      | via l' ds =>
        obtain ⟨target, hlink, -⟩ := bodyAt_of_via hstep
        rw [hstep] at hwalk
        dsimp only at hwalk ⊢
        rw [if_neg (by simp)] at hwalk
        by_cases hcs : cs = []
        · exact Or.inr ⟨cur ++ [c], target, if_pos ⟨hcs, rfl⟩, hlink⟩
        · rw [if_neg fun h => hcs h.1]
          first
          | cases hwalk
          | exact ihn hwalk

/-- The lookup of one component. -/
theorem walk_single_body {c : CStr} {b : Body} (hhere : c ≠ [dot]) (hup : c ≠ [dot, dot])
    (hlen : c.length ≤ nameMax) (hbody : bodyAt t (cur ++ [c]) = some b)
    (hb : ∀ target, b = .link target → f = false) :
    walk t f noGone n cur [c] = .ok (cur ++ [c]) := by
  rw [walk_cons, step_of_body hhere hup hlen, hbody]
  cases b with
  | dir => exact walk_nil
  | file => rfl
  | link target =>
    dsimp only
    rw [if_pos ⟨rfl, hb target rfl⟩]

/-- The lookup of one component that is a directory. -/
theorem walk_single_dir {c : CStr} (hhere : c ≠ [dot]) (hup : c ≠ [dot, dot])
    (hlen : c.length ≤ nameMax) (hbody : bodyAt t (cur ++ [c]) = some .dir) :
    walk t f noGone n cur [c, [dot]] = .ok (cur ++ [c]) := by
  rw [walk_cons, step_of_body hhere hup hlen, hbody]
  exact walk_here

end

end Cage.Util.Volume
