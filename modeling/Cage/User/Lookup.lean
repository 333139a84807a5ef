import Cage.User.Reference

/-!
The loops over tokens and groups against plain lookup. A group entry settles
one token, the first of its name, so tokens of one name are not all settled;
the gids that result are those of the lookup all the same.
-/

namespace Cage.User

open Cage.Util Cage.Lib

/-- The gids of the settled tokens. -/
def settledGids (ts : List GroupToken) : List UInt32 :=
  ts.filterMap fun t => if t.name = none then some t.gid else none

@[simp] theorem settledGids_nil : settledGids [] = [] := rfl

@[simp] theorem settledGids_numeric (g : UInt32) (ts : List GroupToken) :
    settledGids ({ name := none, gid := g } :: ts) = g :: settledGids ts := rfl

@[simp] theorem settledGids_named (n : CStr) (g : UInt32) (ts : List GroupToken) :
    settledGids ({ name := some n, gid := g } :: ts) = settledGids ts := rfl

theorem resolveNamedInGroup_numeric (gf : List Group) (g : UInt32) (ts : List GroupToken) :
    resolveNamedInGroup gf ({ name := none, gid := g } :: ts) =
      { name := none, gid := g } :: resolveNamedInGroup gf ts := by
  induction gf generalizing ts with
  | nil => rfl
  | cons gr gf ih => exact ih (resolveToken gr ts)

theorem resolveNamedInGroup_nil (gf : List Group) : resolveNamedInGroup gf [] = [] := by
  induction gf with
  | nil => rfl
  | cons gr gf ih => exact ih

/-- A named token takes the entry of its name, which is then used up. -/
theorem resolveNamedInGroup_named {gf : List Group} (hgf : (gf.map Group.name).Nodup)
    (n : CStr) (g : UInt32) (ts : List GroupToken) :
    resolveNamedInGroup gf ({ name := some n, gid := g } :: ts) =
      match gf.find? fun gr => gr.name = n with
      | some gr =>
          { name := none, gid := gr.gid } ::
            resolveNamedInGroup (gf.filter fun gr => gr.name ≠ n) ts
      | none => { name := some n, gid := g } :: resolveNamedInGroup gf ts := by
  induction gf generalizing ts with
  | nil => rfl
  | cons gr gf ih =>
    obtain ⟨hgr, hgf'⟩ := List.nodup_cons.mp hgf
    have hstep : resolveNamedInGroup (gr :: gf) ({ name := some n, gid := g } :: ts) =
      resolveNamedInGroup gf (resolveToken gr ({ name := some n, gid := g } :: ts)) := rfl
    by_cases h : gr.name = n
    · have hrest : gf.filter (fun gr => gr.name ≠ n) = gf := by
        refine List.filter_eq_self.mpr fun x hx => ?_
        have hne : x.name ≠ n := fun hxn =>
          hgr (List.mem_map.mpr ⟨x, hx, hxn.trans h.symm⟩)
        simpa using hne
      rw [hstep, resolveToken, if_pos (by rw [h]), resolveNamedInGroup_numeric,
        List.find?_cons_of_pos (by simpa using h), List.filter_cons_of_neg (by simpa using h), hrest]
    · rw [hstep, resolveToken, if_neg (by simpa using Ne.symm h), ih hgf',
        List.find?_cons_of_neg (by simpa using h), List.filter_cons_of_pos (by simpa using h)]
      rfl

theorem tokenGid_filter_of_ne (gf : List Group) {n : CStr} {t : Token} (h : t ≠ .name n) :
    tokenGid (gf.filter fun gr => gr.name ≠ n) t = tokenGid gf t := by
  cases t with
  | gid g => rfl
  | name m =>
    have hm : m ≠ n := fun hmn => h (congrArg Token.name hmn)
    rw [tokenGid_name, tokenGid_name, List.find?_filter]
    refine congrArg (fun p => (List.find? p gf).map Group.gid) ?_
    funext gr
    by_cases hgr : gr.name = m
    · simp [hgr, hm]
    · simp [hgr]

/-- Without the entries of a name, the lookup loses that entry's gid only. -/
theorem mem_filterMap_without {gf : List Group} {n : CStr} {gr : Group}
    (hgr : gf.find? (fun gr => gr.name = n) = some gr) (ts : List Token) (g : UInt32) :
    g = gr.gid ∨ g ∈ ts.filterMap (tokenGid (gf.filter fun gr => gr.name ≠ n)) ↔
      g = gr.gid ∨ g ∈ ts.filterMap (tokenGid gf) := by
  induction ts with
  | nil => rfl
  | cons t ts ih =>
    by_cases ht : t = .name n
    · subst ht
      have hnone : tokenGid (gf.filter fun gr => gr.name ≠ n) (.name n) = none := by
        rw [tokenGid_name, List.find?_filter]
        simp
      have hsome : tokenGid gf (.name n) = some gr.gid := by rw [tokenGid_name, hgr]; rfl
      rw [List.filterMap_cons_none hnone, List.filterMap_cons_some hsome, List.mem_cons, ih]
      tauto
    · have heq := tokenGid_filter_of_ne gf ht
      cases hg : tokenGid gf t with
      | none => rw [List.filterMap_cons_none (heq.trans hg), List.filterMap_cons_none hg, ih]
      | some x =>
        rw [List.filterMap_cons_some (heq.trans hg), List.filterMap_cons_some hg,
          List.mem_cons, List.mem_cons]
        tauto

theorem nodup_names_filter {gf : List Group} (hgf : (gf.map Group.name).Nodup) (p : Group → Bool) :
    ((gf.filter p).map Group.name).Nodup :=
  hgf.sublist (List.filter_sublist.map Group.name)

theorem mem_settledGids {gf : List Group} (hgf : (gf.map Group.name).Nodup)
    (ts : List GroupToken) (g : UInt32) :
    g ∈ settledGids (resolveNamedInGroup gf ts) ↔
      g ∈ (ts.map GroupToken.token).filterMap (tokenGid gf) := by
  induction ts generalizing gf with
  | nil =>
    rw [resolveNamedInGroup_nil]
    rfl
  | cons t ts ih =>
    obtain ⟨name, gid⟩ := t
    cases name with
    | none =>
      rw [resolveNamedInGroup_numeric, settledGids_numeric, List.map_cons,
        GroupToken.token_numeric, List.filterMap_cons_some (tokenGid_gid gf gid), List.mem_cons, List.mem_cons, ih hgf]
    | some n =>
      rw [resolveNamedInGroup_named hgf, List.map_cons]
      cases hgr : gf.find? fun gr => gr.name = n with
      | none =>
        have hnone : tokenGid gf (.name n) = none := by rw [tokenGid_name, hgr]; rfl
        rw [GroupToken.token_named, List.filterMap_cons_none hnone, settledGids_named, ih hgf]
      | some gr =>
        have hsome : tokenGid gf (.name n) = some gr.gid := by rw [tokenGid_name, hgr]; rfl
        rw [GroupToken.token_named, List.filterMap_cons_some hsome, settledGids_numeric, List.mem_cons,
          List.mem_cons, ih (nodup_names_filter hgf _), mem_filterMap_without hgr]

theorem head_settledGids {gf : List Group} (hgf : (gf.map Group.name).Nodup)
    (ts : List GroupToken) :
    (settledGids (resolveNamedInGroup gf ts)).head? =
      ((ts.map GroupToken.token).filterMap (tokenGid gf)).head? := by
  induction ts with
  | nil =>
    rw [resolveNamedInGroup_nil]
    rfl
  | cons t ts ih =>
    obtain ⟨name, gid⟩ := t
    cases name with
    | none =>
      rw [resolveNamedInGroup_numeric]
      rfl
    | some n =>
      rw [resolveNamedInGroup_named hgf, List.map_cons, GroupToken.token_named]
      cases hgr : gf.find? fun gr => gr.name = n with
      | none =>
        have hnone : tokenGid gf (.name n) = none := by rw [tokenGid_name, hgr]; rfl
        rw [List.filterMap_cons_none hnone, settledGids_named, ih]
      | some gr =>
        have hsome : tokenGid gf (.name n) = some gr.gid := by rw [tokenGid_name, hgr]; rfl
        rw [List.filterMap_cons_some hsome]
        rfl

theorem memberOfGroup_iff (n : CStr) (members : List CStr) :
    memberOfGroup n n.length members = true ↔ n ∈ members := by
  unfold memberOfGroup
  rw [List.any_eq_true]
  constructor
  · rintro ⟨m, hm, heq⟩
    simp only [Bool.and_eq_true, beq_iff_eq, List.take_length] at heq
    obtain ⟨htake, hlen⟩ := heq
    rw [← hlen, List.take_length] at htake
    rwa [← htake]
  · intro hn
    exact ⟨n, hn, by simp⟩

theorem insertGidSorted_eq (gs : List UInt32) (g : UInt32) :
    insertGidSorted gs g = SortedSet.insertSorted g gs :=
  (SortedSet.insertSorted_eq g gs).symm

theorem gidAlreadyInList_iff (gs : List UInt32) (g : UInt32) :
    gidAlreadyInList gs g = true ↔ g ∈ gs := by
  simp [gidAlreadyInList]

/-- One round adds the gid of a settled token to the set. -/
theorem appendRemainingGid_spec {gid : UInt32} {gs : List UInt32} (t : GroupToken)
    (hgid : gid ∈ gs) (hgs : SortedSet.Increasing gs) :
    SortedSet.Increasing (appendRemainingGid gid gs t) ∧
      ∀ g, g ∈ appendRemainingGid gid gs t ↔ g ∈ gs ∨ g ∈ settledGids [t] := by
  obtain ⟨name, tg⟩ := t
  cases name with
  | some n => exact ⟨hgs, by simp [appendRemainingGid]⟩
  | none =>
    have hadd : appendRemainingGid gid gs { name := none, gid := tg } = SortedSet.add tg gs := by
      unfold appendRemainingGid SortedSet.add
      by_cases heq : tg = gid
      · subst heq
        simp [hgid]
      · simp [heq, gidAlreadyInList_iff, insertGidSorted_eq]
    rw [hadd]
    refine ⟨SortedSet.increasing_add tg hgs, fun g => ?_⟩
    rw [SortedSet.mem_add, settledGids_numeric, settledGids_nil, List.mem_singleton]
    tauto

theorem foldl_appendRemainingGid_spec {gid : UInt32} {gs : List UInt32} (ts : List GroupToken)
    (hgid : gid ∈ gs) (hgs : SortedSet.Increasing gs) :
    SortedSet.Increasing (ts.foldl (appendRemainingGid gid) gs) ∧
      ∀ g, g ∈ ts.foldl (appendRemainingGid gid) gs ↔ g ∈ gs ∨ g ∈ settledGids ts := by
  induction ts generalizing gs with
  | nil => exact ⟨hgs, by simp⟩
  | cons t ts ih =>
    obtain ⟨hinc, hmem⟩ := appendRemainingGid_spec t hgid hgs
    obtain ⟨hinc', hmem'⟩ := ih ((hmem gid).mpr (Or.inl hgid)) hinc
    refine ⟨hinc', fun g => ?_⟩
    have happ : settledGids (t :: ts) = settledGids [t] ++ settledGids ts :=
      @List.filterMap_append _ _ [t] ts _
    rw [List.foldl_cons, hmem', hmem, happ, List.mem_append, or_assoc]

/-- The list built from the primary gid and the tokens is the set of their
gids. -/
theorem groups_eq_ofList (gid : UInt32) (ts : List GroupToken) :
    ts.foldl (appendRemainingGid gid) [gid] = SortedSet.ofList (gid :: settledGids ts) := by
  obtain ⟨hinc, hmem⟩ := foldl_appendRemainingGid_spec ts (List.mem_singleton_self gid)
    (List.pairwise_singleton _ gid)
  refine SortedSet.eq_ofList hinc fun g => ?_
  rw [hmem, List.mem_singleton, List.mem_cons]

end Cage.User
