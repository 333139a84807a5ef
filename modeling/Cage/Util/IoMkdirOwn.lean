import Cage.Util.IoMkdir

/-!
`io_mkdir_own`: every cut of the path is looked up and made, then the path itself.
-/

namespace Cage.Util.Volume

open Lib.Descent

/-- What `io_exists` says without its cache. -/
def truth (k : Kernel) (t : Tree) (path : CStr) : Int := accessResult (lookErrno k t path)

/-- The cached answers are right, for the paths that are asked for. -/
def Right (k : Kernel) (t : Tree) (asked : CStr → Prop) (cache : List Slot) : Prop :=
  ∀ p r, some (p, r) ∈ cache → asked p → r = truth k t p

/-- The cuts of a path behind its first `n` bytes. -/
def Ahead (path : CStr) (n : Nat) (p : CStr) : Prop := Cut p path ∧ n ≤ p.length

/-- What is known of a run of `mkdir_parents`, where `D` is the path's front. A file that
stands in the way of the path itself shows up later only. -/
structure ParentsMade (k : Kernel) (ids : Owner) (t : Tree) (path D : CStr)
    (r : Int × IoState Tree) : Prop where
  only : Only t r.2.sys (comps path)
  zero : r.1 = 0 → (∃ l, make k ids t (comps D) = some (r.2.sys, l)) ∨
    (make k ids t (comps D) = none ∧ enter r.2.sys [] (comps D) = .error .other)
  returns : (make k ids t (comps D)).isSome → r.1 = 0

/-- The last piece is a name, and the directory it names neither is there nor is made on
the way to it (with `..` in the path it can be both). -/
def NewLeaf (t : Tree) (path : CStr) : Prop :=
  ValidName (lastPiece path) ∧ t.lookup (resolve dots [] (comps path)) = none ∧
    resolve dots [] (comps path) ∉ places dots [] (comps path).dropLast

/-- What is known of a run of `io_mkdir_own` on a path that does not exist. -/
structure MakesNew (k : Kernel) (ids : Owner) (t : Tree) (path : CStr)
    (r : Int × IoState Tree) : Prop where
  only : Only t r.2.sys (comps path)
  zero : r.1 = 0 ↔ (make k ids t (comps path)).isSome ∧ NewLeaf t path
  tree : r.1 = 0 → ∃ l, make k ids t (comps path) = some (r.2.sys, l)

/-- What `mkdir -p` promises: it returns 0 exactly where the directory can exist, the path
is a directory then, and nothing else is made but what is missing on it. -/
structure MakesPath (k : Kernel) (ids : Owner) (t : Tree) (path : CStr)
    (r : Int × IoState Tree) : Prop where
  returns : r.1 = 0 ↔ (make k ids t (comps path)).isSome
  dir : r.1 = 0 → lookKind k r.2.sys true path = .ok .dir
  only : Only t r.2.sys (comps path)

structure MakesOwned (k : Kernel) (ids : Owner) (t : Tree) (path : CStr)
    (r : Int × IoState Tree) : Prop extends MakesPath k ids t path r where
  owned : r.1 = 0 → ∀ m i, t.lookup m = none → r.2.sys.lookup m = some i → i.owner = ids

def Missing (k : Kernel) (t : Tree) (path : CStr) : Prop :=
  ∀ kind, lookKind k t true path ≠ .ok kind

/-- What is missing on the path would be the owner's. -/
def OwnerGiven (k : Kernel) (ids : Owner) (t : Tree) (path : CStr) : Prop :=
  ∀ m ∈ places dots [] (comps path), t.lookup m = none → ownerOf k ids m = ids

/-- `io_mkdir` and `io_mkdir_own` are `mkdir -p` on a path. -/
def MkdirP (k : Kernel) (w : IoState Tree) (path : CStr) (uid gid : UInt32) (mode : Nat) : Prop :=
  MakesPath k rootIds w.sys path (ioMkdir (volume k) path w) ∧
    (Missing k w.sys path → MakesOwned k { uid := uid, gid := gid } w.sys path
      (ioMkdirOwn (volume k) path uid gid mode w))

section

variable {k : Kernel} {t t₁ : Tree} {ids : Owner} {l l₁ cs : Loc} {c path done d a : CStr}
  {asked asked' : CStr → Prop} {cache : List Slot}

theorem Right.mono (h : Right k t asked cache) (hsub : ∀ p, asked' p → asked p) :
    Right k t asked' cache :=
  fun p r hmem hp => h p r hmem (hsub p hp)

theorem mem_invalidated {p q : CStr} {r : Int} (h : some (p, r) ∈ cache.map (invalidateSlot q)) :
    some (p, r) ∈ cache ∧ pathIsRelated p q = false := by
  obtain ⟨slot, hmem, heq⟩ := List.mem_map.mp h
  obtain ⟨rfl, hrel⟩ := invalidateSlot_eq_some heq
  exact ⟨hmem, hrel⟩

/-- `io_exists` tells the truth where the cache does. -/
theorem ioExists_right {w : IoState Tree} (h : Right k w.sys asked w.cache) {p : CStr}
    (hp : asked p) :
    (ioExists (volume k) p w).1 = truth k w.sys p ∧ (ioExists (volume k) p w).2.sys = w.sys ∧
      Right k w.sys asked (ioExists (volume k) p w).2.cache := by
  rw [ioExists_eq]
  have hacc : ((volume k).access p w.sys).1 = lookErrno k w.sys p := rfl
  have hsys : ((volume k).access p w.sys).2 = w.sys := rfl
  rw [hacc, hsys]
  split
  · rename_i hhit
    exact ⟨h p _ (mem_of_ioCacheLookup hhit) hp, rfl, h⟩
  · split
    · refine ⟨rfl, rfl, fun q r hmem hq => ?_⟩
      rcases mem_ioCacheStore hmem with hmem | heq
      · exact h q r hmem hq
      · cases heq
        rfl
    · exact ⟨rfl, rfl, h⟩

/-- What `mkdir_chown` does with the directory that it has made. -/
def ownMade {S : Type} (y : Sys S) (p : CStr) (uid gid : UInt32) : Io S Int := do
  ioCacheInvalidate p
  if uid ≠ 0 ∨ gid ≠ 0 then do
    let c ← Io.sys (y.chown p uid gid)
    match c with
    | some _ => pure (-1)
    | none => pure 0
  else
    pure 0

theorem mkdirChown_split {S : Type} (y : Sys S) (p : CStr) (uid gid : UInt32) (mode : Nat)
    (w : IoState S) :
    mkdirChown y p uid gid mode w =
      (match (y.mkdir p mode w.sys).1 with
        | some _ => pure (-1)
        | none => ownMade y p uid gid : Io S Int) { w with sys := (y.mkdir p mode w.sys).2 } := rfl

theorem mkdirChown_run {S : Type} (y : Sys S) (p : CStr) (uid gid : UInt32) (mode : Nat)
    (w : IoState S) :
    mkdirChown y p uid gid mode w =
      match y.mkdir p mode w.sys with
      | (some _, s) => (-1, { w with sys := s })
      | (none, s) =>
          if uid ≠ 0 ∨ gid ≠ 0 then
            match y.chown p uid gid s with
            | (some _, v) => (-1, { cache := w.cache.map (invalidateSlot p), sys := v })
            | (none, v) => (0, { cache := w.cache.map (invalidateSlot p), sys := v })
          else
            (0, { cache := w.cache.map (invalidateSlot p), sys := s }) := by
  rw [mkdirChown_split]
  rcases y.mkdir p mode w.sys with ⟨r, s⟩
  cases r with
  | some e => rfl
  | none =>
    by_cases hids : uid ≠ 0 ∨ gid ≠ 0
    · rcases hc : y.chown p uid gid s with ⟨x, v⟩
      have howned : ownMade y p uid gid { w with sys := s } =
          (if x = none then 0 else -1, { cache := w.cache.map (invalidateSlot p), sys := v }) := by
        unfold ownMade
        simp only [if_pos hids, Io.sys, ioCacheInvalidate, Io.cache, Io.setCache, bind, StateT.bind, hc]
        cases x <;> rfl
      dsimp only
      rw [if_pos hids, howned, hc]
      cases x <;> rfl
    · dsimp only
      rw [if_neg hids]
      unfold ownMade
      rw [if_neg hids]
      rfl

/-- `mkdir` fails on what cannot be entered because something on the way is no directory. -/
theorem mkdirAt_other (habs : Absolute path) (hlinks : NoLinks t)
    (h : enter t [] (comps path) = .error .other) :
    ∃ e, mkdirAt k path t = (some e, t) := by
  cases hdir : enter t [] (comps path).dropLast with
  | error e => exact ⟨e, mkdirAt_error habs hlinks hdir⟩
  | ok m =>
    rcases List.eq_nil_or_concat (comps path) with hnil | ⟨cs, c, hcomps⟩
    · rw [hnil] at h
      cases h
    · rw [List.concat_eq_append] at hcomps
      rw [hcomps, List.dropLast_concat] at hdir
      rw [hcomps, enter_snoc, hdir] at h
      rw [mkdirAt_snoc habs hlinks hcomps hdir]
      change enterStep t m c = .error .other at h
      unfold enterStep at h
      cases hp : piece t m c with
      | here | up | dir | other => exact ⟨_, rfl⟩
      | long => exact ⟨_, rfl⟩
      | missing =>
        rw [hp] at h
        cases h

theorem lookErrno_of_find {b : Body} (hfind : find k t true path = .ok l)
    (hbody : bodyAt t l = some b) : lookErrno k t path = none := by
  obtain ⟨i, hi, -⟩ := Option.map_eq_some_iff.mp hbody
  unfold lookErrno lookInode
  rw [hfind]
  dsimp only
  rw [hi]

theorem lookErrno_of_error {e : Errno} (hfind : find k t true path = .error e) :
    lookErrno k t path = some e := by
  unfold lookErrno lookInode
  rw [hfind]

/-- Where the front of a path can be entered, `io_exists` looks for the last piece. -/
theorem truth_entered (habs : Absolute path) (h : Split path d a) (hwf : Wf t)
    (hlinks : NoLinks t) (henter : enter t [] (comps d) = .ok l) :
    truth k t path =
      if a = [] then 0
      else
        match piece t l a with
        | .missing => 1
        | .long => -1
        | _ => 0 := by
  have hfind := habs.find (k := k) h hlinks true
  rw [henter] at hfind
  change find k t true path = if a = [] then .ok l else arrive t l a at hfind
  have hdir := hwf.dir_of_enter henter
  unfold truth
  by_cases ha : a = []
  · rw [if_pos ha] at hfind ⊢
    rw [lookErrno_of_find hfind hdir]
    rfl
  · rw [if_neg ha] at hfind ⊢
    unfold arrive at hfind
    cases hp : piece t l a with
    | here | up | dir =>
      have hstep : ∃ m, enterStep t l a = .ok m ∧ find k t true path = .ok m := by
        unfold enterStep
        rw [hp] at hfind ⊢
        exact ⟨_, rfl, hfind⟩
      obtain ⟨m, hstep, hfound⟩ := hstep
      rw [lookErrno_of_find hfound (hwf.dir_of_enterStep hdir hstep)]
      rfl
    | other =>
      rw [hp] at hfind
      rw [lookErrno_of_find hfind (piece_eq_other hp hlinks)]
      rfl
    | long | missing =>
      rw [hp] at hfind
      rw [lookErrno_of_error hfind]
      rfl

theorem truth_error (habs : Absolute path) (h : Split path d a) (hlinks : NoLinks t) {e : Errno}
    (henter : enter t [] (comps d) = .error e) : truth k t path = accessResult (some e) := by
  have hfind := habs.find (k := k) h hlinks true
  rw [henter] at hfind
  unfold truth
  rw [lookErrno_of_error hfind]

theorem mkdirChown_failed {uid gid : UInt32} {mode : Nat} {w : IoState Tree} {e : Errno}
    (h : mkdirAt k path w.sys = (some e, w.sys)) :
    mkdirChown (volume k) path uid gid mode w = (-1, w) := by
  have hvol : (volume k).mkdir path mode w.sys = (some e, w.sys) := h
  rw [mkdirChown_run, hvol]

/-- The missing directory is made and given away, or one of the two is refused. -/
theorem mkdirChown_missing (uid gid : UInt32) (mode : Nat) {w : IoState Tree}
    (habs : Absolute path) (h : Split path d a) (ha : a ≠ []) (hlinks : NoLinks w.sys)
    (henter : enter w.sys [] (comps d) = .ok l) (hp : piece w.sys l a = .missing) :
    (makeStep k { uid := uid, gid := gid } (w.sys, l) a =
        some ((mkdirChown (volume k) path uid gid mode w).2.sys, l ++ [a]) ∧
      (mkdirChown (volume k) path uid gid mode w).1 = 0 ∧
      (mkdirChown (volume k) path uid gid mode w).2.cache = w.cache.map (invalidateSlot path)) ∨
    (makeStep k { uid := uid, gid := gid } (w.sys, l) a = none ∧
      (mkdirChown (volume k) path uid gid mode w).1 = -1 ∧
      ((mkdirChown (volume k) path uid gid mode w).2.sys = w.sys ∨
        ∃ o, (mkdirChown (volume k) path uid gid mode w).2.sys =
          w.sys.insert (l ++ [a]) { body := .dir, owner := o })) := by
  have hmkdir := mkdirAt_snoc (k := k) habs hlinks (h.comps_name ha) henter
  rw [hp] at hmkdir
  have hvol : (volume k).mkdir path mode w.sys = mkdirAt k path w.sys := rfl
  unfold makeStep
  dsimp only
  rw [hp, mkdirChown_run, hvol]
  cases hrefuses : k.refuses w.sys (l ++ [a]) with
  | some e =>
    rw [hrefuses] at hmkdir
    rw [hmkdir]
    exact Or.inr ⟨rfl, rfl, Or.inl rfl⟩
  | none =>
    rw [hrefuses] at hmkdir
    rw [hmkdir]
    dsimp only
    by_cases hids : uid ≠ 0 ∨ gid ≠ 0
    · have hne : ({ uid := uid, gid := gid } : Owner) ≠ rootIds := by
        intro heq
        obtain ⟨rfl, rfl⟩ := Owner.mk.inj heq
        exact hids.elim (fun h => h rfl) fun h => h rfl
      rw [if_pos hids]
      have hfind : find k (w.sys.insert (l ++ [a]) { body := .dir, owner := k.born (l ++ [a]) })
          true path = .ok (l ++ [a]) := by
        rw [habs.find h hlinks.insert, Grows.insert.enter henter]
        obtain ⟨hhere, hup, hlen, -⟩ := piece_eq_missing hp
        change (if a = [] then _ else arrive _ l a) = _
        unfold arrive piece
        rw [if_neg ha, if_neg hhere, if_neg hup, if_neg (Nat.not_lt.mpr hlen), bodyAt_insert,
          if_pos rfl]
      have hchown : (volume k).chown path uid gid
            (w.sys.insert (l ++ [a]) { body := .dir, owner := k.born (l ++ [a]) }) =
          if k.refusesChown (l ++ [a]) then
            (some .other, w.sys.insert (l ++ [a]) { body := .dir, owner := k.born (l ++ [a]) })
          else (none, w.sys.insert (l ++ [a])
            { body := .dir, owner := (k.born (l ++ [a])).chown { uid := uid, gid := gid } }) := by
        change chownAt k path uid gid _ = _
        unfold chownAt
        rw [hfind]
        dsimp only
        rw [AList.lookup_insert]
        dsimp only
        rw [AList.insert_insert]
      rw [hchown]
      by_cases hrefused : k.refusesChown (l ++ [a]) = true
      · right
        simp only [hrefused, hne, ne_eq, not_false_eq_true, and_self, not_true_eq_false, if_true,
          if_false, true_and]
        exact Or.inr ⟨_, rfl⟩
      · left
        simp only [hrefused, hne, ownerOf, ne_eq, and_false, not_true_eq_false, Bool.false_eq_true,
          if_false, and_self]
    · have heq : ({ uid := uid, gid := gid } : Owner) = rootIds := by
        rw [not_or, not_not, not_not] at hids
        rw [hids.1, hids.2]
        rfl
      left
      rw [if_neg hids, heq]
      simp only [ownerOf, ne_eq, not_true_eq_false, false_and, if_false, if_true, and_self]

theorem Split.unique {d' a' : CStr} (h : Split path d a) (h' : Split path d' a') :
    d = d' ∧ a = a' := by
  have ha : a = a' := h.lastPiece.symm.trans h'.lastPiece
  subst ha
  have heq := h.eq.symm.trans h'.eq
  exact ⟨List.append_cancel_right heq, rfl⟩

theorem Split.grow (h : Split done d a) (hc : c ≠ [slash]) {x : UInt8} (hx : c = [x]) :
    Split (done ++ c) d (a ++ c) := by
  refine ⟨by rw [h.eq, List.append_assoc, List.cons_append], fun hmem => ?_⟩
  rcases List.mem_append.mp hmem with hmem | hmem
  · exact h.piece hmem
  · rw [hx, List.mem_singleton] at hmem
    exact hc (by rw [hx, ← hmem])

theorem split_slash (done : CStr) : Split (done ++ [slash]) done [] :=
  ⟨rfl, List.not_mem_nil⟩

theorem mkdirParentsFrom_slash {S : Type} (y : Sys S) (uid gid : UInt32) (done rest : CStr)
    (w : IoState S) :
    mkdirParentsFrom y uid gid done (slash :: rest) w =
      if (ioExists y done w).1 = 0 then
        mkdirParentsFrom y uid gid (done ++ [slash]) rest (ioExists y done w).2
      else if (mkdirChown y done uid gid 0o755 (ioExists y done w).2).1 ≠ 0 then
        (-1, (mkdirChown y done uid gid 0o755 (ioExists y done w).2).2)
      else
        mkdirParentsFrom y uid gid (done ++ [slash]) rest
          (mkdirChown y done uid gid 0o755 (ioExists y done w).2).2 := by
  have hsplit : mkdirParentsFrom y uid gid done (slash :: rest) w =
      (if (ioExists y done w).1 = 0 then mkdirParentsFrom y uid gid (done ++ [slash]) rest
        else do
          let r ← mkdirChown y done uid gid 0o755
          if r ≠ 0 then pure (-1) else mkdirParentsFrom y uid gid (done ++ [slash]) rest :
            Io S Int) (ioExists y done w).2 := rfl
  rw [hsplit]
  split
  · rfl
  · have hnext : ((do
          let r ← mkdirChown y done uid gid 0o755
          if r ≠ 0 then pure (-1) else mkdirParentsFrom y uid gid (done ++ [slash]) rest :
            Io S Int) (ioExists y done w).2) =
        (if (mkdirChown y done uid gid 0o755 (ioExists y done w).2).1 ≠ 0 then pure (-1)
          else mkdirParentsFrom y uid gid (done ++ [slash]) rest : Io S Int)
          (mkdirChown y done uid gid 0o755 (ioExists y done w).2).2 := rfl
    rw [hnext]
    split <;> rfl

theorem mkdirParentsFrom_cons {S : Type} (y : Sys S) (uid gid : UInt32) (done rest : CStr)
    {x : UInt8} (hx : x ≠ slash) (w : IoState S) :
    mkdirParentsFrom y uid gid done (x :: rest) w =
      mkdirParentsFrom y uid gid (done ++ [x]) rest w := by
  have hunfold : mkdirParentsFrom y uid gid done (x :: rest) =
      (if x ≠ slash then mkdirParentsFrom y uid gid (done ++ [x]) rest
        else do
          let e ← ioExists y done
          if e = 0 then mkdirParentsFrom y uid gid (done ++ [x]) rest
          else do
            let r ← mkdirChown y done uid gid 0o755
            if r ≠ 0 then pure (-1) else mkdirParentsFrom y uid gid (done ++ [x]) rest :
              Io S Int) := rfl
  rw [hunfold, if_pos hx]

/-- The cuts of a path are absolute paths. -/
theorem Absolute.cut (habs : Absolute path) (h : Cut done path) (hne : done ≠ []) :
    Absolute done where
  head := by
    rcases h with rfl | ⟨rest, rfl⟩
    · exact habs.head
    · have hhead := habs.head
      rwa [List.head?_append_of_ne_nil _ hne] at hhead
  short := by
    rcases h with rfl | ⟨rest, rfl⟩
    · exact habs.short
    · have hshort := habs.short
      rw [List.length_append] at hshort
      omega

/-- Behind something that is no directory, the loop comes to its end or fails. -/
theorem mkdirParentsFrom_other (uid gid : UInt32) {rest D A : CStr} {w : IoState Tree}
    (habs : Absolute path) (hpath : path = done ++ rest) (hend : Split path D A)
    (hdone : Split done d a) (hlinks : NoLinks w.sys)
    (henter : enter w.sys [] (comps d) = .error .other)
    (hright : Right k w.sys (Ahead path done.length) w.cache) :
    (mkdirParentsFrom (volume k) uid gid done rest w).2.sys = w.sys ∧
      ((mkdirParentsFrom (volume k) uid gid done rest w).1 = 0 →
        enter w.sys [] (comps D) = .error .other) := by
  induction rest generalizing done a with
  | nil =>
    rw [List.append_nil] at hpath
    obtain ⟨rfl, -⟩ := (hpath ▸ hend).unique hdone
    exact ⟨rfl, fun _ => henter⟩
  | cons x rest ih =>
    by_cases hx : x = slash
    · subst hx
      have hcut : Cut done path := Or.inr ⟨rest, hpath⟩
      have habsd := habs.cut hcut hdone.ne_nil
      have hlook := ioExists_right hright ⟨hcut, Nat.le_refl _⟩
      rw [truth_error habsd hdone hlinks henter] at hlook
      obtain ⟨hres, hsys, -⟩ := hlook
      rw [mkdirParentsFrom_slash, hres, if_neg (by decide)]
      have hother : enter w.sys [] (comps done) = .error .other := by
        rw [hdone.comps_eq, enter_append, henter]
        rfl
      obtain ⟨e, hfail⟩ := mkdirAt_other (k := k) habsd hlinks hother
      rw [← hsys] at hfail
      rw [mkdirChown_failed hfail, if_pos (by simp)]
      exact ⟨hsys, fun h => absurd h (by simp)⟩
    · rw [mkdirParentsFrom_cons _ _ _ _ _ hx]
      have hgrow : Split (done ++ [x]) d (a ++ [x]) :=
        hdone.grow (fun h => hx (List.cons.inj h).1) rfl
      refine ih (by rw [hpath, List.append_assoc, List.singleton_append]) hgrow ?_
      refine hright.mono fun p hp => ⟨hp.1, Nat.le_trans ?_ hp.2⟩
      simp

theorem Made.only_insert (h : Made k ids t cs t₁ l) (hmissing : piece t₁ l c = .missing)
    (o : Owner) : Only t (t₁.insert (l ++ [c]) { body := .dir, owner := o }) (cs ++ [c]) := by
  intro m hm
  obtain ⟨hhere, hup, -, hnone⟩ := piece_eq_missing hmissing
  by_cases heq : m = l ++ [c]
  · subst heq
    have hfirst := bodyAt_eq_none.mp hnone
    rw [h.lookup] at hfirst
    refine ⟨?_, by rw [bodyAt_insert, if_pos rfl], (mem_places_snoc dots).mpr (Or.inr ?_)⟩
    · split at hfirst
      · cases hfirst
      · exact hfirst
    · rw [h.resolved, move_plain hhere hup]
  · rw [AList.lookup_insert_ne heq] at hm
    obtain ⟨hfirst, hdir, hmem⟩ := h.only m hm
    exact ⟨hfirst, by rw [bodyAt_insert, if_neg heq, hdir], (mem_places_snoc dots).mpr (Or.inl hmem)⟩

/-- What the cache holds of the longer cuts is dropped when a directory is made. -/
theorem right_invalidated {rest : CStr} (hpath : path = done ++ slash :: rest) :
    Right k t (Ahead path (done ++ [slash]).length) (cache.map (invalidateSlot done)) := by
  intro p r hmem hp
  obtain ⟨-, hrelated⟩ := mem_invalidated hmem
  obtain ⟨hcut, hlen⟩ := hp
  have hpre : p <+: path := by
    rcases hcut with rfl | ⟨x, rfl⟩
    · exact List.prefix_rfl
    · exact List.prefix_append p _
  have hfront : done ++ [slash] <+: path := by
    rw [hpath]
    exact ⟨rest, by simp⟩
  obtain ⟨x, rfl⟩ := List.prefix_of_prefix_length_le hfront hpre hlen
  have hfalse : pathIsRelated (done ++ [slash] ++ x) done = true := by
    simp [pathIsRelated, isPrefixDir]
  rw [hrelated] at hfalse
  cases hfalse

theorem Split.cut_front {D A rest : CStr} (h : Split path D A)
    (hpath : path = done ++ slash :: rest) : Cut done D := by
  have hcut : Cut done path := Or.inr ⟨rest, hpath⟩
  refine (h.cut_iff.mp hcut).resolve_left fun heq => ?_
  have hlen := congrArg List.length hpath
  rw [heq] at hlen
  simp at hlen

/-- The loop, where everything in front of it is made. -/
theorem mkdirParentsFrom_made (uid gid : UInt32) {rest D A : CStr} {w : IoState Tree}
    (habs : Absolute path) (hpath : path = done ++ rest) (hend : Split path D A)
    (hdone : Split done d a) (hwf : Wf t) (hlinks : NoLinks t)
    (hmake : make k { uid := uid, gid := gid } t (comps d) = some (w.sys, l))
    (hright : Right k w.sys (Ahead path done.length) w.cache) :
    ParentsMade k { uid := uid, gid := gid } t path D
      (mkdirParentsFrom (volume k) uid gid done rest w) := by
  induction rest generalizing done d a l w with
  | nil =>
    rw [List.append_nil] at hpath
    obtain ⟨rfl, -⟩ := (hpath ▸ hend).unique hdone
    have hmade := made_of_make hwf hlinks (fun c hc => named_of_mem_comps hc) hmake
    exact ⟨hmade.only.mono hend.front, fun _ => Or.inl ⟨l, hmake⟩, fun _ => rfl⟩
  | cons x rest ih =>
    have hmade := made_of_make hwf hlinks (fun c hc => named_of_mem_comps hc) hmake
    by_cases hx : x = slash
    · subst hx
      have hcut : Cut done path := Or.inr ⟨rest, hpath⟩
      have habsd := habs.cut hcut hdone.ne_nil
      have hfront := (hend.cut_front hpath).comps_front
      have hlook := ioExists_right hright ⟨hcut, Nat.le_refl _⟩
      rw [truth_entered habsd hdone hmade.wf hmade.links hmade.entered] at hlook
      obtain ⟨hres, hsys, hright'⟩ := hlook
      have hpath' : path = done ++ [slash] ++ rest := by
        rw [hpath, List.append_assoc, List.singleton_append]
      have hshrink {t' : Tree} {cache' : List Slot} (h : Right k t' (Ahead path done.length) cache') :
          Right k t' (Ahead path (done ++ [slash]).length) cache' :=
        h.mono fun p hp => ⟨hp.1, Nat.le_trans (by simp) hp.2⟩
      have hstay (s : Loc) (hnext : make k { uid := uid, gid := gid } t (comps done) =
          some (w.sys, s)) : ParentsMade k { uid := uid, gid := gid } t path D
            (mkdirParentsFrom (volume k) uid gid (done ++ [slash]) rest
              (ioExists (volume k) done w).2) := by
        refine ih hpath' (split_slash done) (l := s) ?_ ?_
        · rw [hsys]
          exact hnext
        · rw [hsys]
          exact hshrink hright'
      rw [mkdirParentsFrom_slash, hres]
      by_cases ha : a = []
      · subst ha
        rw [if_pos rfl, if_pos rfl]
        refine hstay l ?_
        rw [hdone.comps_empty]
        exact hmake
      · have hstep : make k { uid := uid, gid := gid } t (comps done) =
            makeStep k { uid := uid, gid := gid } (w.sys, l) a := by
          rw [hdone.comps_name ha, make_snoc, hmake]
          rfl
        have hnone (h : makeStep k { uid := uid, gid := gid } (w.sys, l) a = none) :
            make k { uid := uid, gid := gid } t (comps D) = none := by
          obtain ⟨ds, hds⟩ := hfront
          rw [← hds]
          exact make_none_front (hstep.trans h)
        rw [if_neg ha]
        cases hp : piece w.sys l a with
        | here | up | dir =>
          rw [if_pos rfl]
          have hentered : ∃ s, enterStep w.sys l a = .ok s := by
            unfold enterStep
            rw [hp]
            exact ⟨_, rfl⟩
          obtain ⟨s, hs⟩ := hentered
          exact hstay s (hstep.trans (makeStep_of_enterStep hs))
        | other =>
          rw [if_pos rfl]
          have hother : enterStep w.sys l a = .error .other := by
            unfold enterStep
            rw [hp]
          have henter : enter w.sys [] (comps done) = .error .other := by
            rw [hdone.comps_name ha, enter_snoc, hmade.entered]
            exact hother
          have hstop := mkdirParentsFrom_other uid gid habs hpath' hend (split_slash done)
            (hsys ▸ hmade.links) (hsys ▸ henter) (hsys ▸ hshrink hright')
          rw [hsys] at hstop
          have hgone := hnone (makeStep_of_other hother)
          refine ⟨?_, fun hr => Or.inr ⟨hgone, ?_⟩, fun hsome => ?_⟩
          · rw [hstop.1]
            exact hmade.only.mono (hdone.front.trans hcut.comps_front)
          · rw [hstop.1]
            exact hstop.2 hr
          · rw [hgone] at hsome
            cases hsome
        | long =>
          have hother : enterStep w.sys l a = .error .other := by
            unfold enterStep
            rw [hp]
          have henter : enter w.sys [] (comps done) = .error .other := by
            rw [hdone.comps_name ha, enter_snoc, hmade.entered]
            exact hother
          obtain ⟨e, hfail⟩ := mkdirAt_other (k := k) habsd hmade.links henter
          rw [← hsys] at hfail
          rw [if_neg (by decide), mkdirChown_failed hfail, if_pos (by simp)]
          have hgone := hnone (makeStep_of_other hother)
          refine ⟨?_, fun hr => absurd hr (by simp), fun hsome => ?_⟩
          · rw [hsys]
            exact hmade.only.mono (hdone.front.trans hcut.comps_front)
          · rw [hgone] at hsome
            cases hsome
        | missing =>
          rw [if_neg (by decide)]
          have hrun := mkdirChown_missing (k := k) (w := (ioExists (volume k) done w).2) uid gid
            0o755 habsd hdone ha (hsys ▸ hmade.links) (hsys ▸ hmade.entered) (hsys ▸ hp)
          rw [hsys] at hrun
          rcases hrun with ⟨hmk, hzero, hcache⟩ | ⟨hmk, hfail, htree⟩
          · rw [if_neg (by simp [hzero])]
            refine ih hpath' (split_slash done) (hstep.trans hmk) ?_
            rw [hcache]
            exact right_invalidated hpath
          · rw [if_pos (by simp [hfail])]
            have hgone := hnone hmk
            refine ⟨?_, fun hr => absurd hr (by simp), fun hsome => ?_⟩
            · rcases htree with htree | ⟨o, htree⟩
              · rw [htree]
                exact hmade.only.mono (hdone.front.trans hcut.comps_front)
              · rw [htree]
                have honly := hmade.only_insert hp o
                rw [← hdone.comps_name ha] at honly
                exact honly.mono hcut.comps_front
            · rw [hgone] at hsome
              cases hsome
    · rw [mkdirParentsFrom_cons _ _ _ _ _ hx]
      have hgrow : Split (done ++ [x]) d (a ++ [x]) :=
        hdone.grow (fun h => hx (List.cons.inj h).1) rfl
      refine ih (by rw [hpath, List.append_assoc, List.singleton_append]) hgrow hmake ?_
      exact hright.mono fun p hp => ⟨hp.1, Nat.le_trans (by simp) hp.2⟩

theorem Only.noLinks (h : Only t t₁ cs) (hlinks : NoLinks t) : NoLinks t₁ := by
  intro m target hm
  by_cases hsame : t₁.lookup m = t.lookup m
  · unfold bodyAt at hm
    rw [hsame] at hm
    exact hlinks m target hm
  · rw [(h m hsame).2.1] at hm
    cases hm

theorem newLeaf_iff {D A : CStr} (h : Made k ids t (comps D) t₁ l) (hend : Split path D A)
    (hsome : (make k ids t (comps path)).isSome)
    (hmake : make k ids t (comps D) = some (t₁, l)) :
    NewLeaf t path ↔ A ≠ [] ∧ piece t₁ l A = .missing := by
  unfold NewLeaf
  rw [hend.lastPiece]
  constructor
  · rintro ⟨⟨hne, -, hhere, hup⟩, hgone, hnew⟩
    refine ⟨hne, ?_⟩
    have hcomps := hend.comps_name hne
    rw [hcomps, List.dropLast_concat, resolve_append, h.resolved] at hnew
    rw [hcomps, resolve_append, h.resolved] at hgone
    change move dots l A ∉ _ at hnew
    change t.lookup (move dots l A) = none at hgone
    rw [move_plain hhere hup] at hnew hgone
    have hnone : t₁.lookup (l ++ [A]) = none := by
      rw [h.lookup, if_neg fun hmem => hnew hmem.2, hgone]
    rw [hcomps, make_snoc, hmake] at hsome
    change (makeStep k ids (t₁, l) A).isSome at hsome
    cases hp : piece t₁ l A with
    | missing => rfl
    | here => exact absurd (piece_eq_here hp) hhere
    | up => exact absurd (piece_eq_up hp).2 hup
    | dir =>
      have hdir := (piece_eq_dir hp).2.2
      rw [bodyAt_eq_none.mpr hnone] at hdir
      cases hdir
    | long | other =>
      unfold makeStep at hsome
      dsimp only at hsome
      rw [hp] at hsome
      cases hsome
  · rintro ⟨hne, hp⟩
    obtain ⟨hhere, hup, -, hnone⟩ := piece_eq_missing hp
    have hcomps := hend.comps_name hne
    rw [hcomps, List.dropLast_concat, resolve_append, h.resolved]
    change _ ∧ t.lookup (move dots l A) = none ∧ move dots l A ∉ _
    rw [move_plain hhere hup]
    have hgone := bodyAt_eq_none.mp hnone
    rw [h.lookup] at hgone
    split at hgone
    · cases hgone
    · rename_i hno
      exact ⟨⟨hne, hend.piece, hhere, hup⟩, hgone, fun hmem => hno ⟨hgone, hmem⟩⟩

theorem ioMkdirOwn_run {S : Type} (y : Sys S) (path : CStr) (uid gid : UInt32) (mode : Nat)
    (w : IoState S) :
    ioMkdirOwn y path uid gid mode w =
      if (ioExists y path w).1 < 0 then (-1, (ioExists y path w).2)
      else if (ioExists y path w).1 = 0 then (0, (ioExists y path w).2)
      else if (mkdirParents y path uid gid (ioExists y path w).2).1 ≠ 0 then
        (-1, (mkdirParents y path uid gid (ioExists y path w).2).2)
      else mkdirChown y path uid gid mode (mkdirParents y path uid gid (ioExists y path w).2).2 := by
  have hsplit : ioMkdirOwn y path uid gid mode w =
      (if (ioExists y path w).1 < 0 then pure (-1)
        else if (ioExists y path w).1 = 0 then pure 0
        else do
          let r ← mkdirParents y path uid gid
          if r ≠ 0 then pure (-1) else mkdirChown y path uid gid mode : Io S Int)
        (ioExists y path w).2 := rfl
  rw [hsplit]
  split
  · rfl
  · split
    · rfl
    · have hnext : ((do
            let r ← mkdirParents y path uid gid
            if r ≠ 0 then pure (-1) else mkdirChown y path uid gid mode : Io S Int)
            (ioExists y path w).2) =
          (if (mkdirParents y path uid gid (ioExists y path w).2).1 ≠ 0 then pure (-1)
            else mkdirChown y path uid gid mode : Io S Int)
            (mkdirParents y path uid gid (ioExists y path w).2).2 := rfl
      rw [hnext]
      split <;> rfl

variable {r : Int × IoState Tree}

theorem makesNew_failed (hr : r.1 ≠ 0) (honly : Only t r.2.sys (comps path))
    (hno : (make k ids t (comps path)).isSome → ¬ NewLeaf t path) : MakesNew k ids t path r :=
  ⟨honly, iff_of_false hr fun h => hno h.1 h.2, fun h => absurd h hr⟩

/-- The last `mkdir`, where the front of the path is made. -/
theorem mkdirChown_makes (uid gid : UInt32) (mode : Nat) {D A : CStr} {w : IoState Tree}
    (habs : Absolute path) (hend : Split path D A) (hwf : Wf t) (hlinks : NoLinks t)
    (hmake : make k { uid := uid, gid := gid } t (comps D) = some (w.sys, l)) :
    MakesNew k { uid := uid, gid := gid } t path (mkdirChown (volume k) path uid gid mode w) := by
  have hmade := made_of_make hwf hlinks (fun c hc => named_of_mem_comps hc) hmake
  have honly := hmade.only.mono hend.front
  have hfail {e : Errno} (h : mkdirAt k path w.sys = (some e, w.sys))
      (hp : A = [] ∨ piece w.sys l A ≠ .missing) :
      MakesNew k { uid := uid, gid := gid } t path
        (mkdirChown (volume k) path uid gid mode w) := by
    rw [mkdirChown_failed h]
    refine makesNew_failed (by simp) honly fun hsome hnew => ?_
    obtain ⟨hne, hmissing⟩ := (newLeaf_iff hmade hend hsome hmake).mp hnew
    exact hp.elim hne fun h => h hmissing
  by_cases hA : A = []
  · subst hA
    have hentered := hmade.entered
    rw [← hend.comps_empty] at hentered
    exact hfail (mkdirAt_entered habs hmade.links hentered) (Or.inl rfl)
  · have hcomps := hend.comps_name hA
    have hrun := mkdirAt_snoc (k := k) habs hmade.links hcomps hmade.entered
    cases hp : piece w.sys l A with
    | here | up | dir | other | long =>
      rw [hp] at hrun
      exact hfail hrun (Or.inr (by rw [hp]; decide))
    | missing =>
      have hwhole : make k { uid := uid, gid := gid } t (comps path) =
          makeStep k { uid := uid, gid := gid } (w.sys, l) A := by
        rw [hcomps, make_snoc, hmake]
        rfl
      rcases mkdirChown_missing uid gid mode habs hend hA hmade.links hmade.entered hp with
        ⟨hmk, hzero, -⟩ | ⟨hmk, hrc, htree⟩
      · have hsome := hwhole.trans hmk
        have hmadePath := made_of_make hwf hlinks (fun c hc => named_of_mem_comps hc) hsome
        refine ⟨hmadePath.only, iff_of_true hzero ⟨by rw [hsome]; rfl, ?_⟩, fun _ => ⟨_, hsome⟩⟩
        exact (newLeaf_iff hmade hend (by rw [hsome]; rfl) hmake).mpr ⟨hA, hp⟩
      · refine makesNew_failed (by simp [hrc]) ?_ fun hsome => ?_
        · rcases htree with htree | ⟨o, htree⟩
          · rw [htree]
            exact honly
          · rw [htree, hcomps]
            exact hmade.only_insert hp o
        · rw [hwhole, hmk] at hsome
          cases hsome

/-- `io_mkdir_own` on a path that does not exist. -/
theorem ioMkdirOwn_makes (uid gid : UInt32) (mode : Nat) (habs : Absolute path)
    {w : IoState Tree} (hwf : Wf w.sys) (hlinks : NoLinks w.sys)
    (hright : Right k w.sys (fun _ => True) w.cache) (hmissing : truth k w.sys path ≠ 0) :
    MakesNew k { uid := uid, gid := gid } w.sys path
      (ioMkdirOwn (volume k) path uid gid mode w) := by
  obtain ⟨D, A, hend⟩ := exists_split habs.head
  obtain ⟨hres, hsys, hright'⟩ := ioExists_right hright trivial (p := path)
  rw [ioMkdirOwn_run, hres]
  split
  · rename_i hneg
    refine makesNew_failed (by simp) (by rw [hsys]; exact only_refl) fun hsome hnew => ?_
    cases henter : enter w.sys [] (comps D) with
    | error e =>
      rw [truth_error habs hend hlinks henter] at hneg
      rcases enter_error henter with rfl | rfl
      · exact absurd hneg (by decide)
      · rw [hend.comps_eq, make_none_front (make_of_other henter)] at hsome
        cases hsome
    | ok l =>
      have hmake : make k { uid := uid, gid := gid } w.sys (comps D) = some (w.sys, l) :=
        make_of_enter henter
      have hmade := made_of_make hwf hlinks (fun c hc => named_of_mem_comps hc) hmake
      obtain ⟨hne, hp⟩ := (newLeaf_iff hmade hend hsome hmake).mp hnew
      rw [truth_entered habs hend hwf hlinks henter, if_neg hne, hp] at hneg
      exact absurd hneg (by decide)
  · have hslash : path.take 1 = [slash] := by
      obtain ⟨rest, hrest⟩ := List.head?_eq_some_iff.mp habs.head
      rw [hrest]
      rfl
    have hparents : ParentsMade k { uid := uid, gid := gid } w.sys path D
        (mkdirParents (volume k) path uid gid (ioExists (volume k) path w).2) := by
      refine mkdirParentsFrom_made uid gid habs (List.take_append_drop 1 path).symm hend
        (d := []) (a := []) (l := []) ?_ hwf hlinks ?_ ?_
      · rw [hslash]
        exact split_slash []
      · rw [hsys]
        rfl
      · rw [hsys]
        exact hright'.mono fun _ _ => trivial
    generalize mkdirParents (volume k) path uid gid (ioExists (volume k) path w).2 = r at hparents ⊢
    split
    · rename_i hr
      refine makesNew_failed (by simp) hparents.only fun hsome => ?_
      refine absurd (hparents.returns ?_) hr
      rw [hend.comps_eq] at hsome
      by_contra hnone
      rw [Option.not_isSome_iff_eq_none] at hnone
      rw [make_none_front hnone] at hsome
      cases hsome
    · rename_i hr
      rcases hparents.zero (of_not_not hr) with ⟨l, hmake⟩ | ⟨hnone, hother⟩
      · exact mkdirChown_makes uid gid mode habs hend hwf hlinks hmake
      · have hpath : enter r.2.sys [] (comps path) = .error .other := by
          rw [hend.comps_eq, enter_append, hother]
          rfl
        obtain ⟨e, hfail⟩ := mkdirAt_other (k := k) habs (hparents.only.noLinks hlinks) hpath
        rw [mkdirChown_failed hfail]
        refine makesNew_failed (by simp) hparents.only fun hsome => ?_
        rw [hend.comps_eq, make_none_front hnone] at hsome
        cases hsome

/-- A path that was made can be entered. -/
theorem dir_of_make (habs : Absolute path) (hwf : Wf t) (hlinks : NoLinks t)
    (h : make k ids t (comps path) = some (t₁, l)) : lookKind k t₁ true path = .ok .dir := by
  have hmade := made_of_make hwf hlinks (fun c hc => named_of_mem_comps hc) h
  exact (lookKind_dir_iff habs hmade.wf hmade.links).mpr ⟨l, hmade.entered⟩

/-- `io_mkdir` is `mkdir -p` exactly if, wherever the path is cut, a plain name stands at
the end, or the directory it stands in is there. -/
theorem makesPath_iff (habs : Absolute path) {w : IoState Tree} (hwf : Wf w.sys)
    (hlinks : NoLinks w.sys) :
    MakesPath k rootIds w.sys path (ioMkdir (volume k) path w) ↔
      ((make k rootIds w.sys (comps path)).isSome → NoDetour w.sys path) := by
  have hmakes := ioMkdir_makes (k := k) habs hwf hlinks
  constructor
  · intro h hsome
    exact (hmakes.zero.mp (h.returns.mpr hsome)).2
  · intro h
    refine ⟨⟨fun hr => (hmakes.zero.mp hr).1, fun hsome => hmakes.zero.mpr ⟨hsome, h hsome⟩⟩,
      fun hr => ?_, hmakes.only⟩
    obtain ⟨l, hmake, -⟩ := hmakes.tree hr
    exact dir_of_make habs hwf hlinks hmake

theorem truth_of_missing (h : Missing k t path) : truth k t path ≠ 0 := by
  intro hzero
  unfold truth lookErrno at hzero
  unfold Missing lookKind at h
  cases hlook : lookInode k t true path with
  | ok i =>
    rw [hlook] at h
    exact h _ rfl
  | error e =>
    rw [hlook] at hzero
    cases e <;> cases hzero

/-- So is `io_mkdir_own`, on a path that does not exist, exactly if the path ends in a name
that nothing has yet, and new directories are the owner's. -/
theorem makesOwned_iff (uid gid : UInt32) (mode : Nat) (habs : Absolute path)
    {w : IoState Tree} (hwf : Wf w.sys) (hlinks : NoLinks w.sys)
    (hright : Right k w.sys (fun _ => True) w.cache) (hmissing : Missing k w.sys path) :
    MakesOwned k { uid := uid, gid := gid } w.sys path
        (ioMkdirOwn (volume k) path uid gid mode w) ↔
      ((make k { uid := uid, gid := gid } w.sys (comps path)).isSome →
        NewLeaf w.sys path ∧ OwnerGiven k { uid := uid, gid := gid } w.sys path) := by
  have hmakes := ioMkdirOwn_makes uid gid mode habs hwf hlinks hright (truth_of_missing hmissing)
  generalize ioMkdirOwn (volume k) path uid gid mode w = r at hmakes ⊢
  have hlookup (hr : r.1 = 0) (m : Loc) : r.2.sys.lookup m =
      if w.sys.lookup m = none ∧ m ∈ places dots [] (comps path) then
        some { body := .dir, owner := ownerOf k { uid := uid, gid := gid } m }
      else w.sys.lookup m := by
    obtain ⟨l, hmake⟩ := hmakes.tree hr
    exact (made_of_make hwf hlinks (fun c hc => named_of_mem_comps hc) hmake).lookup m
  constructor
  · intro h hsome
    have hr := h.returns.mpr hsome
    refine ⟨(hmakes.zero.mp hr).2, fun m hm hnone => ?_⟩
    refine h.owned hr m { body := .dir, owner := ownerOf k { uid := uid, gid := gid } m } hnone ?_
    rw [hlookup hr, if_pos ⟨hnone, hm⟩]
  · intro h
    refine ⟨⟨⟨fun hr => (hmakes.zero.mp hr).1,
      fun hsome => hmakes.zero.mpr ⟨hsome, (h hsome).1⟩⟩, fun hr => ?_, hmakes.only⟩,
      fun hr m i hnone hi => ?_⟩
    · obtain ⟨l, hmake⟩ := hmakes.tree hr
      exact dir_of_make habs hwf hlinks hmake
    · rw [hlookup hr] at hi
      split at hi
      · rename_i hnew
        cases hi
        exact (h (hmakes.zero.mp hr).1).2 m hnew.2 hnone
      · rw [hnone] at hi
        cases hi

/-- Both, on every absolute path the kernel takes. -/
theorem mkdirP_iff (uid gid : UInt32) (mode : Nat) (habs : Absolute path) {w : IoState Tree}
    (hwf : Wf w.sys) (hlinks : NoLinks w.sys) (hright : Right k w.sys (fun _ => True) w.cache) :
    MkdirP k w path uid gid mode ↔
      ((make k rootIds w.sys (comps path)).isSome → NoDetour w.sys path) ∧
        (Missing k w.sys path →
          (make k { uid := uid, gid := gid } w.sys (comps path)).isSome →
            NewLeaf w.sys path ∧ OwnerGiven k { uid := uid, gid := gid } w.sys path) := by
  unfold MkdirP
  rw [makesPath_iff habs hwf hlinks]
  refine and_congr_right fun _ => ?_
  constructor
  · intro h hmissing
    exact (makesOwned_iff uid gid mode habs hwf hlinks hright hmissing).mp (h hmissing)
  · intro h hmissing
    exact (makesOwned_iff uid gid mode habs hwf hlinks hright hmissing).mpr (h hmissing)

end

def bareState : IoState Tree where
  cache := emptyCache
  sys := bareTree

theorem bare_noLinks : NoLinks bareTree := by
  intro l target h
  rw [bodyAt_bare] at h
  split at h <;> cases h

theorem bare_right : Right freeKernel bareTree (fun _ => True) emptyCache := by
  intro p r hmem
  cases List.eq_of_mem_replicate hmem

/-- `/a/b` in an empty root, for the user 1000. -/
theorem mkdirP_plain : MkdirP freeKernel bareState (lit "/a/b") 1000 1000 0o755 := by
  refine (mkdirP_iff 1000 1000 0o755 ⟨rfl, by decide⟩ bare_wf bare_noLinks bare_right).mpr
    ⟨fun _ => ?_, fun _ _ => ⟨?_, ?_⟩⟩
  · have hsplit : Split (lit "/a/b") (lit "/a") (lit "b") := ⟨rfl, by decide⟩
    refine hsplit.noDetour_iff.mpr ⟨fun _ => by decide, ?_⟩
    exact noDetour_of_entered (l := []) rfl
  · exact ⟨by decide, rfl, by decide⟩
  · exact fun m _ _ => rfl

/-- `/a/b/` and `/a/` in an empty root: 0 was possible, and both return -1. -/
theorem mkdirP_fails :
    (make freeKernel rootIds bareTree (comps (lit "/a/b/"))).isSome ∧
    (ioMkdir (volume freeKernel) (lit "/a/b/") bareState).1 = -1 ∧
    (ioMkdirOwn (volume freeKernel) (lit "/a/") 1000 1000 0o755 bareState).1 = -1 ∧
    ¬ ∀ (k : Kernel) (w : IoState Tree) (path : CStr) (uid gid : UInt32) (mode : Nat),
      Absolute path → Wf w.sys → NoLinks w.sys → Right k w.sys (fun _ => True) w.cache →
      MkdirP k w path uid gid mode := by
  have hpossible : (make freeKernel rootIds bareTree (comps (lit "/a/b/"))).isSome := by decide
  have hfails : (ioMkdir (volume freeKernel) (lit "/a/b/") bareState).1 = -1 := by decide
  refine ⟨hpossible, hfails, by decide, fun h => ?_⟩
  have hmkdir := (h freeKernel bareState (lit "/a/b/") 0 0 0o755 ⟨rfl, by decide⟩ bare_wf
    bare_noLinks bare_right).1.returns.mpr hpossible
  rw [hfails] at hmkdir
  exact absurd hmkdir (by decide)

end Cage.Util.Volume
