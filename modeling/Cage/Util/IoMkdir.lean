import Cage.Util.MakesPath

/-!
`io_mkdir` and `io_mkdir_own` on every spelling of a path, in a tree without links.
`io_mkdir` asks for the path up to the last slash when a directory is missing, and
fails where that has made the path itself.
-/

namespace Cage.Util.Volume

open Lib.Descent

/-- A slash, or nothing, stands behind `q` in the path. -/
def Cut (q path : CStr) : Prop := q = path ∨ ∃ rest, path = q ++ slash :: rest

/-- Wherever the path is cut, a plain name stands at the end, if the directory it stands
in is missing. -/
def NoDetour (t : Tree) (path : CStr) : Prop :=
  ∀ q, Cut q path → enter t [] (comps q).dropLast = .error .enoent → ValidName (lastPiece q)

/-- What is known of a run of `io_mkdir`. -/
structure Makes (k : Kernel) (t : Tree) (path : CStr) (r : Int × IoState Tree) : Prop where
  only : Only t r.2.sys (comps path)
  zero : r.1 = 0 ↔ (make k rootIds t (comps path)).isSome ∧ NoDetour t path
  tree : r.1 = 0 → ∃ l, make k rootIds t (comps path) = some (r.2.sys, l) ∧
    (enter t [] (comps path) = .error .enoent →
      ∀ m, l <+: m → m ≠ l → r.2.sys.lookup m = none)

section

variable {k : Kernel} {t t' : Tree} {ids : Owner} {l cs : Loc} {c path d a q : CStr}

theorem Cut.comps_front (h : Cut q path) : comps q <+: comps path := by
  rcases h with rfl | ⟨rest, rfl⟩
  · exact List.prefix_rfl
  · rw [comps_append_slash]
    exact List.prefix_append _ _

theorem Split.cut_iff (h : Split path d a) : Cut q path ↔ q = path ∨ Cut q d := by
  unfold Cut
  refine or_congr_right ?_
  rw [h.eq]
  constructor
  · rintro ⟨rest, heq⟩
    rcases List.append_eq_append_iff.mp heq with ⟨x, rfl, hx⟩ | ⟨x, rfl, hx⟩
    · cases x with
      | nil => exact Or.inl (List.append_nil d)
      | cons y x =>
        obtain ⟨-, hrest⟩ := List.cons.inj hx
        exact absurd (hrest ▸ List.mem_append_right x List.mem_cons_self) h.piece
    · cases x with
      | nil => exact Or.inl (List.append_nil q).symm
      | cons y x =>
        obtain ⟨rfl, -⟩ := List.cons.inj hx
        exact Or.inr ⟨x, rfl⟩
  · rintro (rfl | ⟨rest, rfl⟩)
    · exact ⟨a, rfl⟩
    · exact ⟨rest ++ slash :: a, by rw [List.append_assoc, List.cons_append]⟩

theorem Split.noDetour_iff (h : Split path d a) :
    NoDetour t path ↔
      (enter t [] (comps path).dropLast = .error .enoent → ValidName a) ∧ NoDetour t d := by
  unfold NoDetour
  simp only [h.cut_iff]
  constructor
  · intro hall
    refine ⟨fun henter => ?_, fun q hq => hall q (Or.inr hq)⟩
    have hname := hall path (Or.inl rfl) henter
    rwa [h.lastPiece] at hname
  · rintro ⟨hpath, hd⟩ q (rfl | hq) henter
    · rw [h.lastPiece]
      exact hpath henter
    · exact hd q hq henter

theorem enter_prefix {as bs : Loc} (hpre : as <+: bs) (h : enter t [] bs = .ok l) :
    ∃ m, enter t [] as = .ok m := by
  obtain ⟨ds, rfl⟩ := hpre
  rw [enter_append] at h
  cases has : enter t [] as with
  | error e =>
    rw [has] at h
    cases h
  | ok m => exact ⟨m, rfl⟩

theorem dropLast_front (as : Loc) : as.dropLast <+: as := by
  exact List.dropLast_prefix as

theorem dropLast_mono {as bs : Loc} (h : as <+: bs) : as.dropLast <+: bs.dropLast := by
  refine List.prefix_of_prefix_length_le ((dropLast_front as).trans h) (dropLast_front bs) ?_
  rw [List.length_dropLast, List.length_dropLast]
  exact Nat.sub_le_sub_right h.length_le 1

/-- Where the directory is there, so are those of every shorter path. -/
theorem noDetour_of_entered (h : enter t [] (comps path).dropLast = .ok l) : NoDetour t path := by
  intro q hq henter
  obtain ⟨m, hm⟩ := enter_prefix (dropLast_mono hq.comps_front) h
  rw [hm] at henter
  cases henter

theorem only_refl : Only t t cs := fun _ hm => absurd rfl hm

theorem Only.mono {ds : Loc} (h : Only t t' cs) (hpre : cs <+: ds) : Only t t' ds := by
  intro m hm
  obtain ⟨hnone, hdir, hmem⟩ := h m hm
  obtain ⟨as, has, rfl⟩ := (mem_places dots).mp hmem
  exact ⟨hnone, hdir, (mem_places dots).mpr ⟨as, has.trans hpre, rfl⟩⟩

theorem mkdirStep_split {S : Type} (y : Sys S) (f : CStr → Io S Int) (path : CStr) (w : IoState S) :
    mkdirStep y f path w =
      (match (y.mkdir path 0o755 w.sys).1 with
        | none => do
            ioCacheInvalidate path
            pure 0
        | some .eexist => mkdirExisting y path
        | some .enoent => mkdirDeep y f path
        | some _ => pure (-1) : Io S Int) { w with sys := (y.mkdir path 0o755 w.sys).2 } := rfl

theorem mkdirStep_run {S : Type} (y : Sys S) (f : CStr → Io S Int) (path : CStr) (w : IoState S) :
    mkdirStep y f path w =
      match y.mkdir path 0o755 w.sys with
      | (none, s) => (0, { cache := w.cache.map (invalidateSlot path), sys := s })
      | (some .eexist, s) => mkdirExisting y path { w with sys := s }
      | (some .enoent, s) => mkdirDeep y f path { w with sys := s }
      | (some _, s) => (-1, { w with sys := s }) := by
  rw [mkdirStep_split]
  obtain ⟨r, s⟩ := y.mkdir path 0o755 w.sys
  cases r with
  | none => rfl
  | some e => cases e <;> rfl

/-- The end of `mkdir_deep`. -/
def mkdirLast {S : Type} (y : Sys S) (path : CStr) : Io S Int := do
  let r ← mkdirm y path 0o755
  if r = 0 then do
    ioCacheInvalidate path
    pure r
  else
    pure r

theorem mkdirDeep_run {S : Type} (y : Sys S) (f : CStr → Io S Int) (path : CStr) (w : IoState S) :
    mkdirDeep y f path w =
      if (mkdirParent f path w).1 ≠ 0 then (-1, (mkdirParent f path w).2)
      else mkdirLast y path (mkdirParent f path w).2 := by
  have hsplit : mkdirDeep y f path w =
      (if (mkdirParent f path w).1 ≠ 0 then pure (-1) else mkdirLast y path : Io S Int)
        (mkdirParent f path w).2 := rfl
  rw [hsplit]
  split <;> rfl

theorem mkdirLast_failed {S : Type} {y : Sys S} {path : CStr} {w : IoState S} {e : Errno}
    (h : y.mkdir path 0o755 w.sys = (some e, w.sys)) : mkdirLast y path w = (-1, w) := by
  unfold mkdirLast
  rw [mkdirm_eq]
  simp only [Io.sys, h, bind, StateT.bind]
  rfl

theorem mkdirLast_made {S : Type} {y : Sys S} {path : CStr} {w : IoState S} {s : S}
    (h : y.mkdir path 0o755 w.sys = (none, s)) :
    mkdirLast y path w = (0, { cache := w.cache.map (invalidateSlot path), sys := s }) := by
  unfold mkdirLast
  rw [mkdirm_eq]
  simp only [Io.sys, h, bind, StateT.bind]
  rfl

/-- The parent of a path is what stands in front of its last slash. -/
theorem Split.mkdirParent {S : Type} (h : Split path d a) (hshort : path.length < pathMax)
    (f : CStr → Io S Int) : mkdirParent f path = if d = [] then pure 0 else f d := by
  have hlen : d.length < pathBuffer := by
    have hpath := h.length
    have hsame : pathBuffer = pathMax := rfl
    omega
  unfold Util.mkdirParent
  rw [h.eq, beforeLastSlash_str d h.piece]
  dsimp only
  rw [List.take_left, if_neg (Nat.not_le.mpr hlen)]
  simp only [List.length_eq_zero_iff]

theorem mkdirExisting_run (habs : Absolute path) (w : IoState Tree) (hwf : Wf w.sys)
    (hlinks : NoLinks w.sys) :
    (mkdirExisting (volume k) path w).2.sys = w.sys ∧
      ((mkdirExisting (volume k) path w).1 = 0 ↔ ∃ l, enter w.sys [] (comps path) = .ok l) := by
  have hkind := lookKind_dir_iff (k := k) habs hwf hlinks
  rw [← hkind]
  have hfails {r : Except Errno Kind} (hlook : lookKind k w.sys true path = r) (hr : r ≠ .ok .dir)
      (hrun : mkdirExisting (volume k) path w = (-1, w)) :
      (mkdirExisting (volume k) path w).2.sys = w.sys ∧
        ((mkdirExisting (volume k) path w).1 = 0 ↔ lookKind k w.sys true path = .ok .dir) := by
    rw [hrun, hlook]
    exact ⟨rfl, iff_of_false (fun h : (-1 : Int) = 0 => absurd h (by decide)) hr⟩
  cases hlook : lookKind k w.sys true path with
  | error e =>
    rw [← hlook]
    refine hfails hlook (by simp) ?_
    simp only [mkdirExisting, mkdirCheckExisting, ioIsdir, Io.sys, volume, hlook, bind, StateT.bind]
    rfl
  | ok kind =>
    rw [← hlook]
    cases kind with
    | dir =>
      have hrun : mkdirExisting (volume k) path w =
          (0, { cache := w.cache.map (invalidateSlot path), sys := w.sys }) := by
        simp only [mkdirExisting, mkdirCheckExisting, ioIsdir, Io.sys, volume, hlook, bind,
          StateT.bind]
        rfl
      rw [hrun]
      exact ⟨rfl, iff_of_true rfl hlook⟩
    | file | link =>
      refine hfails hlook (by simp) ?_
      simp only [mkdirExisting, mkdirCheckExisting, ioIsdir, Io.sys, volume, hlook, bind, StateT.bind]
      rfl

/-- Nothing is below what is missing. -/
theorem Wf.below (hwf : Wf t) (h : t.lookup l = none) {m : Loc} (hm : l <+: m) :
    t.lookup m = none := by
  induction m using List.reverseRecOn with
  | nil =>
    obtain rfl := List.prefix_nil.mp hm
    exact h
  | append_singleton m c ih =>
    rcases List.prefix_concat_iff.mp hm with rfl | hm
    · exact h
    · by_contra hthere
      have hdir := hwf.parent m c fun hnone => hthere (bodyAt_eq_none.mp hnone)
      rw [bodyAt_eq_none.mpr (ih hm)] at hdir
      cases hdir

variable {r : Int × IoState Tree}

theorem makes_failed (hr : r.1 ≠ 0) (honly : Only t r.2.sys (comps path))
    (hno : make k rootIds t (comps path) = none ∨ ¬ NoDetour t path) : Makes k t path r where
  only := honly
  zero := by
    refine iff_of_false hr ?_
    rintro ⟨hsome, hdetour⟩
    rcases hno with hnone | hno
    · rw [hnone] at hsome
      cases hsome
    · exact hno hdetour
  tree h := absurd h hr

/-- The path was there. -/
theorem makes_there (h : enter t [] (comps path) = .ok l) (hr : r.1 = 0) (htree : r.2.sys = t) :
    Makes k t path r where
  only := by
    rw [htree]
    exact only_refl
  zero := by
    refine iff_of_true hr ⟨?_, ?_⟩
    · rw [make_of_enter h]
      rfl
    · obtain ⟨m, hm⟩ := enter_prefix (dropLast_front _) h
      exact noDetour_of_entered hm
  tree _ := by
    refine ⟨l, by rw [htree]; exact make_of_enter h, fun hgone => ?_⟩
    rw [h] at hgone
    cases hgone

/-- The last component was made, in a directory with nothing of that name. -/
theorem makes_new {t₁ : Tree} (hwf : Wf t) (hlinks : NoLinks t) (hcomps : comps path = cs ++ [c])
    (hmake : make k rootIds t cs = some (t₁, l)) (hdetour : NoDetour t path)
    (hmissing : piece t₁ l c = .missing) (hrefuses : k.refuses t₁ (l ++ [c]) = none)
    (hbelow : ∀ m, l ++ [c] <+: m → t₁.lookup m = none) (hr : r.1 = 0)
    (htree : r.2.sys = t₁.insert (l ++ [c]) { body := .dir, owner := k.born (l ++ [c]) }) :
    Makes k t path r := by
  have hnames : ∀ a ∈ comps path, Named a := fun a ha => named_of_mem_comps ha
  have hwhole : make k rootIds t (comps path) = some (r.2.sys, l ++ [c]) := by
    rw [hcomps, make_snoc, hmake, htree]
    change makeStep k rootIds (t₁, l) c = _
    unfold makeStep ownerOf
    dsimp only
    rw [hmissing]
    simp [hrefuses]
  refine ⟨(made_of_make hwf hlinks hnames hwhole).only,
    iff_of_true hr ⟨by rw [hwhole]; rfl, hdetour⟩, fun _ => ⟨_, hwhole, fun _ m hm hne => ?_⟩⟩
  rw [htree, AList.lookup_insert_ne hne, hbelow m hm]

variable {f : CStr → Io Tree Int}

/-- `mkdir_deep` where the directory is missing: it is made by the call for the parent. -/
theorem makes_gap (habs : Absolute path) (hwf : Wf t) (hlinks : NoLinks t)
    (hgap : enter t [] (comps path).dropLast = .error .enoent)
    (hf : ∀ d w, Absolute d → d.length < path.length → w.sys = t → Makes k t d (f d w))
    {w : IoState Tree} (hw : w.sys = t) : Makes k t path (mkdirDeep (volume k) f path w) := by
  obtain ⟨d, a, hsplit⟩ := exists_split habs.head
  have hlen := hsplit.length
  have hd : d ≠ [] := by
    rintro rfl
    have hcomps : (comps path).dropLast = [] := by
      rw [hsplit.comps_eq]
      split <;> rfl
    rw [hcomps] at hgap
    cases hgap
  have hpre := hsplit.front
  have hparent := hf d w (habs.front hsplit hd) (by omega) hw
  rw [mkdirDeep_run, hsplit.mkdirParent habs.short, if_neg hd]
  split
  · rename_i hr
    refine makes_failed (by simp) (hparent.only.mono hpre) ?_
    have hno := mt hparent.zero.mpr hr
    rw [not_and_or, Option.not_isSome_iff_eq_none] at hno
    refine hno.imp (fun hnone => ?_) fun hno hall => hno (hsplit.noDetour_iff.mp hall).2
    rw [hsplit.comps_eq]
    exact make_none_front hnone
  · rename_i hr
    replace hr := of_not_not hr
    obtain ⟨l, hmake, hbelow⟩ := hparent.tree hr
    have hdetour := (hparent.zero.mp hr).2
    have honly := hparent.only
    generalize f d w = s at hmake hbelow honly ⊢
    have hmade := made_of_make hwf hlinks (fun c hc => named_of_mem_comps hc) hmake
    have hfail {e : Errno} (hrun : mkdirAt k path s.2.sys = (some e, s.2.sys))
        (hno : make k rootIds t (comps path) = none ∨ ¬ NoDetour t path) :
        Makes k t path (mkdirLast (volume k) path s.2) := by
      rw [mkdirLast_failed (y := volume k) hrun]
      exact makes_failed (by simp) (honly.mono hpre) hno
    by_cases ha : a = []
    · subst ha
      have hentered := hmade.entered
      rw [← hsplit.comps_empty] at hentered
      have hrun := mkdirAt_entered (k := k) habs hmade.links hentered
      exact hfail hrun (Or.inr fun hall => ((hsplit.noDetour_iff.mp hall).1 hgap).1 rfl)
    · have hcomps := hsplit.comps_name ha
      have hrun := mkdirAt_snoc (k := k) habs hmade.links hcomps hmade.entered
      have hgapd : enter t [] (comps d) = .error .enoent := by
        rwa [hcomps, List.dropLast_concat] at hgap
      have hnone : ∀ m, l ++ [a] <+: m → s.2.sys.lookup m = none := by
        intro m hm
        refine hbelow hgapd m ((List.prefix_append l [a]).trans hm) ?_
        rintro rfl
        have hlong := hm.length_le
        rw [List.length_append, List.length_singleton] at hlong
        omega
      have hwhole : make k rootIds t (comps path) = makeStep k rootIds (s.2.sys, l) a := by
        rw [hcomps, make_snoc, hmake]
        rfl
      cases hp : piece s.2.sys l a with
      | here =>
        rw [hp] at hrun
        refine hfail hrun (Or.inr fun hall => ?_)
        exact ((hsplit.noDetour_iff.mp hall).1 hgap).2.2.1 (piece_eq_here hp)
      | up =>
        rw [hp] at hrun
        refine hfail hrun (Or.inr fun hall => ?_)
        exact ((hsplit.noDetour_iff.mp hall).1 hgap).2.2.2 (piece_eq_up hp).2
      | long =>
        rw [hp] at hrun
        refine hfail hrun (Or.inl ?_)
        rw [hwhole]
        unfold makeStep
        dsimp only
        rw [hp]
      | dir =>
        have hdir := (piece_eq_dir hp).2.2
        rw [bodyAt_eq_none.mpr (hnone _ List.prefix_rfl)] at hdir
        cases hdir
      | other =>
        have hfile := piece_eq_other hp hmade.links
        rw [bodyAt_eq_none.mpr (hnone _ List.prefix_rfl)] at hfile
        cases hfile
      | missing =>
        rw [hp] at hrun
        cases hrefuses : k.refuses s.2.sys (l ++ [a]) with
        | some e =>
          rw [hrefuses] at hrun
          refine hfail hrun (Or.inl ?_)
          rw [hwhole]
          unfold makeStep
          dsimp only
          rw [hp]
          simp [hrefuses]
        | none =>
          rw [hrefuses] at hrun
          rw [mkdirLast_made (y := volume k) hrun]
          obtain ⟨hhere, hup, -, -⟩ := piece_eq_missing hp
          have hvalid : ValidName a := ⟨ha, hsplit.piece, hhere, hup⟩
          exact makes_new hwf hlinks hcomps hmake
            (hsplit.noDetour_iff.mpr ⟨fun _ => hvalid, hdetour⟩) hp hrefuses hnone rfl rfl

/-- `mkdir_deep` after a `mkdir` that was refused in a directory that is there: it is
refused again. -/
theorem makes_refused (habs : Absolute path) (hcomps : comps path = cs ++ [c]) (henter : enter t [] cs = .ok l)
    (hnone : make k rootIds t (comps path) = none) {e : Errno}
    (hrun : mkdirAt k path t = (some e, t))
    (hf : ∀ d w, Absolute d → d.length < path.length → w.sys = t → Makes k t d (f d w))
    {w : IoState Tree} (hw : w.sys = t) : Makes k t path (mkdirDeep (volume k) f path w) := by
  obtain ⟨d, a, hsplit⟩ := exists_split habs.head
  have hlen := hsplit.length
  have hpre := hsplit.front
  have hlast {s : IoState Tree} (hs : s.sys = t) :
      Makes k t path (mkdirLast (volume k) path s) := by
    have hvol : (volume k).mkdir path 0o755 s.sys = (some e, s.sys) := by
      rw [hs]
      exact hrun
    rw [mkdirLast_failed hvol]
    exact makes_failed (by simp) (by rw [hs]; exact only_refl) (Or.inl hnone)
  rw [mkdirDeep_run, hsplit.mkdirParent habs.short]
  by_cases hd : d = []
  · rw [if_pos hd]
    exact hlast hw
  · rw [if_neg hd]
    have hparent := hf d w (habs.front hsplit hd) (by omega) hw
    split
    · exact makes_failed (by simp) (hparent.only.mono hpre) (Or.inl hnone)
    · rename_i hr
      obtain ⟨l', hmake, -⟩ := hparent.tree (of_not_not hr)
      by_cases ha : a = []
      · subst ha
        rw [hsplit.comps_empty, hmake] at hnone
        cases hnone
      · have hsame : comps d = cs := by
          have heq := hsplit.comps_name ha
          rw [hcomps] at heq
          exact (List.append_inj' heq rfl).1.symm
        rw [hsame, make_of_enter henter] at hmake
        exact hlast (Prod.mk.inj (Option.some.inj hmake)).1.symm

/-- `io_mkdir` where the directory of the last component is there. -/
theorem makes_entered (habs : Absolute path) (hwf : Wf t) (hlinks : NoLinks t)
    (hdir : enter t [] (comps path).dropLast = .ok l)
    (hf : ∀ d w, Absolute d → d.length < path.length → w.sys = t → Makes k t d (f d w))
    {w : IoState Tree} (hw : w.sys = t) : Makes k t path (mkdirStep (volume k) f path w) := by
  have hexisting : Makes k t path (mkdirExisting (volume k) path w) ∨
      ∀ m, enter t [] (comps path) ≠ .ok m := by
    by_cases h : ∃ m, enter t [] (comps path) = .ok m
    · obtain ⟨m, hm⟩ := h
      obtain ⟨htree, hzero⟩ := mkdirExisting_run (k := k) habs w (hw ▸ hwf) (hw ▸ hlinks)
      exact Or.inl (makes_there hm (hzero.mpr ⟨m, by rw [hw]; exact hm⟩) (htree.trans hw))
    · exact Or.inr fun m hm => h ⟨m, hm⟩
  have hrefused (hno : ∀ m, enter t [] (comps path) ≠ .ok m)
      (hnone : make k rootIds t (comps path) = none) :
      Makes k t path (mkdirExisting (volume k) path w) := by
    obtain ⟨htree, hzero⟩ := mkdirExisting_run (k := k) habs w (hw ▸ hwf) (hw ▸ hlinks)
    refine makes_failed (fun hr => ?_) (by rw [htree, hw]; exact only_refl) (Or.inl hnone)
    obtain ⟨m, hm⟩ := hzero.mp hr
    exact hno m (by rw [← hw]; exact hm)
  have hvol : (volume k).mkdir path 0o755 w.sys = mkdirAt k path t := by
    rw [hw]
    rfl
  have hw' : ({ w with sys := t } : IoState Tree) = w := by rw [← hw]
  rw [mkdirStep_run, hvol]
  rcases List.eq_nil_or_concat (comps path) with hnil | ⟨cs, c, hcomps⟩
  · have hroot : enter t [] (comps path) = .ok [] := by rw [hnil]; rfl
    rw [mkdirAt_entered habs hlinks hroot]
    dsimp only
    rw [hw']
    exact hexisting.resolve_right fun hno => hno _ hroot
  · rw [List.concat_eq_append] at hcomps
    rw [hcomps, List.dropLast_concat] at hdir
    have henter : enter t [] (comps path) = enterStep t l c := by
      rw [hcomps, enter_snoc, hdir]
      rfl
    have hmake : make k rootIds t (comps path) = makeStep k rootIds (t, l) c := by
      rw [hcomps, make_snoc, make_of_enter hdir]
      rfl
    rw [mkdirAt_snoc habs hlinks hcomps hdir]
    cases hp : piece t l c with
    | here | up | dir =>
      dsimp only
      rw [hw']
      refine hexisting.resolve_right fun hno => ?_
      rw [henter] at hno
      unfold enterStep at hno
      rw [hp] at hno
      exact hno _ rfl
    | other =>
      dsimp only
      rw [hw']
      have hother : enterStep t l c = .error .other := by
        unfold enterStep
        rw [hp]
      refine hrefused (fun m hm => ?_) (hmake.trans (makeStep_of_other hother))
      rw [henter, hother] at hm
      cases hm
    | long =>
      have hother : enterStep t l c = .error .other := by
        unfold enterStep
        rw [hp]
      exact makes_failed (by simp) only_refl (Or.inl (hmake.trans (makeStep_of_other hother)))
    | missing =>
      have hno : ∀ m, enter t [] (comps path) ≠ .ok m := by
        intro m hm
        rw [henter] at hm
        unfold enterStep at hm
        rw [hp] at hm
        cases hm
      have hrun := mkdirAt_snoc (k := k) habs hlinks hcomps hdir
      rw [hp] at hrun
      dsimp only at hrun ⊢
      cases hrefuses : k.refuses t (l ++ [c]) with
      | some e =>
        rw [hrefuses] at hrun
        have hnone : make k rootIds t (comps path) = none := by
          rw [hmake]
          unfold makeStep
          dsimp only
          rw [hp]
          simp [hrefuses]
        cases e with
        | eexist =>
          dsimp only
          rw [hw']
          exact hrefused hno hnone
        | enoent =>
          dsimp only
          rw [hw']
          exact makes_refused habs hcomps hdir hnone hrun hf hw
        | eacces | other => exact makes_failed (by simp) only_refl (Or.inl hnone)
      | none =>
        refine makes_new hwf hlinks hcomps (make_of_enter hdir) ?_ hp hrefuses (fun m hm => ?_)
          rfl rfl
        · refine noDetour_of_entered (l := l) ?_
          rw [hcomps, List.dropLast_concat]
          exact hdir
        · exact hwf.below (bodyAt_eq_none.mp (piece_eq_missing hp).2.2.2) hm

/-- `io_mkdir`, however deep it calls itself. -/
theorem mkdirDepth_makes (hwf : Wf t) (hlinks : NoLinks t) {n : Nat} (hn : path.length < n)
    (habs : Absolute path) {w : IoState Tree} (hw : w.sys = t) :
    Makes k t path (mkdirDepth (volume k) n path w) := by
  induction n generalizing path w with
  | zero => exact absurd hn (Nat.not_lt_zero _)
  | succ n ih =>
    have hf : ∀ d v, Absolute d → d.length < path.length → v.sys = t →
        Makes k t d (mkdirDepth (volume k) n d v) :=
      fun d v hd hlt hv => ih (by omega) hd hv
    change Makes k t path (mkdirStep (volume k) (mkdirDepth (volume k) n) path w)
    have hw' : ({ w with sys := t } : IoState Tree) = w := by rw [← hw]
    cases hdir : enter t [] (comps path).dropLast with
    | ok l => exact makes_entered habs hwf hlinks hdir hf hw
    | error e =>
      have hvol : (volume k).mkdir path 0o755 w.sys = (some e, t) := by
        rw [hw]
        exact mkdirAt_error habs hlinks hdir
      rw [mkdirStep_run, hvol]
      rcases enter_error hdir with rfl | rfl
      · dsimp only
        rw [hw']
        exact makes_gap habs hwf hlinks hdir hf hw
      · refine makes_failed (by simp) only_refl (Or.inl ?_)
        obtain ⟨ds, hds⟩ := dropLast_front (comps path)
        rw [← hds]
        exact make_none_front (make_of_other hdir)

theorem ioMkdir_makes (habs : Absolute path) {w : IoState Tree} (hwf : Wf w.sys)
    (hlinks : NoLinks w.sys) : Makes k w.sys path (ioMkdir (volume k) path w) :=
  mkdirDepth_makes hwf hlinks (Nat.lt_succ_self _) habs rfl

end

end Cage.Util.Volume
