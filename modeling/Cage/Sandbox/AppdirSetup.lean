import Cage.Sandbox.AppdirLoop

/-!
`early_setup_appdir` for an appdir with and without more slashes at its end.
-/

namespace Cage.Sandbox

open Lib.Program Util

/-- The state from which `early_setup_appdir` runs. -/
structure Start {S : Type} (fs : FileSystem S) where
  state : S
  cache : List Slot
  current : Current fs state cache

variable {S : Type} {fs : FileSystem S} (st : Start fs) (pid : Nat) (cfg : Cfg)

def setup : Option Dirs := (((earlySetupAppdir pid cfg).run st.cache).exec fs.answer st.state).1.1

/-- What `same_fs_detect` returns for the configuration. -/
def detected : Int :=
  match resolveAppdir cfg with
  | none => -1
  | some dirs =>
      (((sameFsDetect dirs.tidy.lowerdir dirs.tidy.upperdir).run st.cache).exec fs.answer
        st.state).1.1.1

/-- The directories that were set up, with the directory and the image of the
loop file system if they moved there. -/
structure Placed where
  upperdir : CStr
  workdir : CStr
  loop : Option (CStr × CStr)

def loopPaths : Option (CStr × CStr) :=
  if 0 < detected st cfg then do
    let dirs ← resolveAppdir cfg
    let lp ← loopFill dirs.appdir
    some (lp.loopdir, lp.loopImg)
  else none

def placed : Option Placed :=
  (setup st pid cfg).map fun dirs =>
    { upperdir := dirs.upperdir, workdir := dirs.workdir, loop := loopPaths st cfg }

/-- The same places, up to repeated slashes. -/
structure Placed.Alike (p q : Placed) : Prop where
  upperdir : SamePath p.upperdir q.upperdir
  workdir : SamePath p.workdir q.workdir
  loop : Option.Rel (fun a b => SamePath a.1 b.1 ∧ SamePath a.2 b.2) p.loop q.loop

/-- The configuration with the appdir `path`. -/
def Cfg.withAppdir (path : CStr) : Cfg := { cfg with appdir := some path }

/-- Both runs fail, or both succeed with the same places. -/
def SameSetup (path : CStr) (n : Nat) : Prop :=
  Option.Rel Placed.Alike (placed st pid (cfg.withAppdir path))
    (placed st pid (cfg.withAppdir (withSlashes path n)))

/-- The strings made of the appdir fit in their buffers. -/
structure Fits (path : CStr) : Prop where
  appdir : path.length < bufSize
  upperdir : cfg.upperdir = none → path.length + 6 < bufSize
  workdir : cfg.workdir = none → path.length + 5 < bufSize

/-- What `resolve_appdir` makes of the appdir. -/
def resolved (path : CStr) : Dirs where
  appdir := path
  upperdir := cfg.upperdir.getD (path ++ slash :: lit "upper")
  workdir := cfg.workdir.getD (path ++ slash :: lit "work")
  lowerdir := cfg.lowerdir.getD (lit "/")
  dirsCreated := false

/-- A conflict is found, and the run goes on to the loop directory of the appdir. -/
def GoesToLoop (path : CStr) : Prop :=
  cfg.upperdir = none ∧ 0 < detected st (cfg.withAppdir path) ∧
    ∃ lp dirs, loopFill path = some lp ∧ loopDirsSet (resolved cfg path).tidy cfg lp = some dirs

/-- The appdir, where the upper directory goes below it, is no file. -/
def NotFile (path : CStr) : Prop :=
  cfg.upperdir = none → ∀ f, fs.resolve st.state path = .ok f → f.kind = .dir

section Resolve

/-- The other strings of the configuration fit. -/
structure OthersFit : Prop where
  upperdir : ∀ p, cfg.upperdir = some p → p.length < bufSize
  workdir : ∀ p, cfg.workdir = some p → p.length < bufSize
  lowerdir : ∀ p, cfg.lowerdir = some p → p.length < bufSize

/-- `set_dir` with a suffix: the string of the configuration, or one below the
appdir. -/
theorem setDir_some {src : Option CStr} {path suffix p : CStr} :
    setDir bufSize src path (some suffix) = some p ↔
      p = src.getD (path ++ slash :: suffix) ∧ (∀ q, src = some q → q.length < bufSize) ∧
        (src = none → path.length + (suffix.length + 1) < bufSize) := by
  unfold setDir join
  cases src with
  | none =>
    dsimp only
    constructor
    · intro h
      split at h
      · cases h
      · rename_i hfits
        exact ⟨(Option.some.inj h).symm, nofun, fun _ => by omega⟩
    · rintro ⟨rfl, -, hfits⟩
      have hroom := hfits rfl
      rw [if_neg (by omega)]
      rfl
  | some q =>
    dsimp only
    constructor
    · intro h
      split at h
      · cases h
      · rename_i hfits
        refine ⟨(Option.some.inj h).symm, fun r hr => ?_, nofun⟩
        cases hr
        exact Nat.lt_of_not_ge hfits
    · rintro ⟨hp, hfits, -⟩
      rw [hp, if_neg (Nat.not_le_of_lt (hfits q rfl))]
      rfl

theorem setDir_none {src : Option CStr} {path p : CStr} :
    setDir bufSize src path none = some p ↔
      p = src.getD (lit "/") ∧ ∀ q, src = some q → q.length < bufSize := by
  unfold setDir
  cases src with
  | none => exact ⟨fun h => ⟨(Option.some.inj h).symm, nofun⟩, fun h => h.1 ▸ rfl⟩
  | some q =>
    dsimp only
    constructor
    · intro h
      split at h
      · cases h
      · rename_i hfits
        refine ⟨(Option.some.inj h).symm, fun r hr => ?_⟩
        cases hr
        exact Nat.lt_of_not_ge hfits
    · rintro ⟨hp, hfits⟩
      rw [hp, if_neg (Nat.not_le_of_lt (hfits q rfl))]
      rfl

theorem setAppdir_some {path p : CStr} :
    setAppdir (cfg.withAppdir path) = some p ↔ p = path ∧ path.length < bufSize := by
  change (if path.length ≥ bufSize then none else some path) = some p ↔ _
  constructor
  · intro h
    split at h
    · cases h
    · rename_i hfits
      exact ⟨(Option.some.inj h).symm, Nat.lt_of_not_ge hfits⟩
  · rintro ⟨rfl, hfits⟩
    exact if_neg (Nat.not_le_of_lt hfits)

/-- `resolve_appdir` fails only where a string does not fit. -/
theorem resolveAppdir_some {path : CStr} {dirs : Dirs} :
    resolveAppdir (cfg.withAppdir path) = some dirs ↔
      dirs = resolved cfg path ∧ Fits cfg path ∧ OthersFit cfg := by
  unfold resolveAppdir
  simp only [Option.bind_eq_bind, Option.bind_eq_some_iff, setAppdir_some, setDir_some,
    setDir_none, Option.some.injEq]
  constructor
  · rintro ⟨_, ⟨rfl, happ⟩, _, ⟨rfl, hupper, hup⟩, _, ⟨rfl, hwork, hwk⟩, _, ⟨rfl, hlower⟩, rfl⟩
    exact ⟨rfl, ⟨happ, hup, hwk⟩, ⟨hupper, hwork, hlower⟩⟩
  · rintro ⟨rfl, hfits, hothers⟩
    exact ⟨_, ⟨rfl, hfits.appdir⟩, _, ⟨rfl, hothers.upperdir, hfits.upperdir⟩, _,
      ⟨rfl, hothers.workdir, hfits.workdir⟩, _, ⟨rfl, hothers.lowerdir⟩, rfl⟩

theorem Fits.of_withSlashes {path : CStr} {n : Nat} (h : Fits cfg (withSlashes path n)) :
    Fits cfg path := by
  obtain ⟨happ, hupper, hwork⟩ := h
  rw [length_withSlashes] at happ hupper hwork
  exact ⟨by omega, fun hnone => by have := hupper hnone; omega,
    fun hnone => by have := hwork hnone; omega⟩

end Resolve

section Moved

/-- The directories are those on the loop file system. -/
structure InLoop (work : CStr) (lp : Loop) (keepWork : Bool) (dirs : Dirs) : Prop where
  upperdir : dirs.upperdir = lp.loopAppdir ++ lit "/upper"
  workdir : dirs.workdir = if keepWork then work else lp.loopAppdir ++ lit "/work"

/-- Whatever the calls answer, success leaves the directories on the loop file
system. -/
def MovesTo (work : CStr) (lp : Loop) (keepWork : Bool) (m : Steps (Option Dirs)) : Prop :=
  Ends (S := S) (fun _ _ _ _ => True) (fun _ _ => True) m fun r _ _ =>
    ∀ dirs, r = some dirs → InLoop work lp keepWork dirs

variable {dirs : Dirs} {lp : Loop} {keepWork : Bool} {work : CStr}

theorem MovesTo.fails : MovesTo (S := S) work lp keepWork (pure none) :=
  Ends.pure fun _ _ _ _ => nofun

theorem MovesTo.bind {A : Type} {m : Steps A} {f : A → Steps (Option Dirs)}
    (hf : ∀ a, MovesTo (S := S) work lp keepWork (f a)) :
    MovesTo (S := S) work lp keepWork (m >>= f) :=
  Ends.bind Ends.trivial hf

theorem MovesTo.ite {c : Prop} [Decidable c] {m n : Steps (Option Dirs)}
    (hm : MovesTo (S := S) work lp keepWork m) (hn : MovesTo (S := S) work lp keepWork n) :
    MovesTo (S := S) work lp keepWork (if c then m else n) :=
  Ends.ite (fun _ => hm) fun _ => hn

theorem setLoopAppdir_inLoop {dirs' : Dirs} (h : setLoopAppdir dirs lp keepWork = some dirs') :
    InLoop dirs.workdir lp keepWork dirs' := by
  unfold setLoopAppdir at h
  dsimp only at h
  generalize hwork : (if keepWork = true then dirs.workdir else lp.loopAppdir ++ lit "/work") = w at h
  split at h
  · cases h
  · obtain rfl := Option.some.inj h
    exact ⟨rfl, hwork.symm⟩

theorem MovesTo.setLoopAppdir :
    MovesTo (S := S) dirs.workdir lp keepWork (pure (setLoopAppdir dirs lp keepWork)) :=
  Ends.pure fun _ _ _ _ h => setLoopAppdir_inLoop h

theorem useProvisionedLoopback_moves (rootDev : Nat) :
    MovesTo (S := S) dirs.workdir lp keepWork (useProvisionedLoopback dirs lp rootDev keepWork) := by
  unfold useProvisionedLoopback
  refine MovesTo.bind fun found => ?_
  cases found with
  | error e => exact MovesTo.fails
  | ok found =>
    refine MovesTo.bind fun real => MovesTo.ite MovesTo.fails (MovesTo.ite MovesTo.fails ?_)
    cases hset : setLoopAppdir dirs lp keepWork with
    | none => exact MovesTo.fails
    | some dirs' =>
      have hin := setLoopAppdir_inLoop hset
      refine Ends.pure fun _ _ _ d hd => ?_
      cases hd
      exact ⟨hin.upperdir, hin.workdir⟩

theorem setupExt4Loopback_moves :
    MovesTo (S := S) dirs.workdir lp keepWork (setupExt4Loopback pid dirs lp keepWork) := by
  unfold setupExt4Loopback
  refine MovesTo.bind fun img => MovesTo.ite MovesTo.fails (MovesTo.bind fun id => ?_)
  cases id with
  | none => exact MovesTo.fails
  | some id =>
    refine MovesTo.bind fun mounted => MovesTo.bind fun _ => ?_
    cases mounted with
    | some e => exact MovesTo.fails
    | none =>
      dsimp only
      cases hset : setLoopAppdir dirs lp keepWork with
      | none => exact MovesTo.fails
      | some dirs' =>
        refine MovesTo.bind fun made => Ends.pure fun _ _ _ d hd => ?_
        split at hd
        · cases hd
        · cases hd
          exact setLoopAppdir_inLoop hset

theorem ensureExt4Mounted_moves (rootDev : Nat) :
    MovesTo (S := S) dirs.workdir lp keepWork (ensureExt4Mounted pid dirs lp rootDev keepWork) := by
  unfold ensureExt4Mounted
  refine MovesTo.bind fun found => ?_
  cases found with
  | ok found =>
    exact MovesTo.bind fun real => MovesTo.ite MovesTo.fails
      (MovesTo.ite MovesTo.setLoopAppdir (setupExt4Loopback_moves pid))
  | error e =>
    exact MovesTo.bind fun made => MovesTo.ite MovesTo.fails (setupExt4Loopback_moves pid)

end Moved

section Runs

variable {st pid cfg} {dirs : Dirs}

theorem detected_eq (h : resolveAppdir cfg = some dirs) :
    detected st cfg = (detect fs st.state dirs.tidy.lowerdir dirs.tidy.upperdir).1 := by
  obtain ⟨c, -, hrun⟩ := sameFsDetect_yields dirs.tidy.lowerdir dirs.tidy.upperdir st.cache
    st.current
  unfold detected
  rw [h]
  change ((((sameFsDetect dirs.tidy.lowerdir dirs.tidy.upperdir).run st.cache).exec fs.answer
    st.state).1.1).1 = _
  rw [hrun]

/-- What `handle_same_fs` does once the two file systems are compared. -/
def afterDetect (pid : Nat) (cfg : Cfg) (dirs : Dirs) (found : Int × Nat) : Steps (Option Dirs) :=
  if found.1 < 0 then pure none
  else if found.1 = 0 then pure (some dirs)
  else if cfg.upperdir.isSome then pure none
  else
    match loopFill dirs.appdir with
    | none => pure none
    | some lp =>
        match loopDirsSet dirs cfg lp with
        | none => pure none
        | some dirs => do
            let e ← Steps.ioExists dirs.upperdir
            if e = 0 then useProvisionedLoopback dirs lp found.2 cfg.workdir.isSome
            else ensureExt4Mounted pid dirs lp found.2 cfg.workdir.isSome

theorem early_rest (st : Start fs) (pid : Nat) (h : resolveAppdir cfg = some dirs) :
    ∃ c, Current fs st.state c ∧ ((earlySetupAppdir pid cfg).run st.cache).exec fs.answer st.state =
      ((afterDetect pid cfg dirs.tidy (detect fs st.state dirs.tidy.lowerdir
        dirs.tidy.upperdir)).run c).exec fs.answer st.state := by
  obtain ⟨c, hc, hrun⟩ := sameFsDetect_yields dirs.tidy.lowerdir dirs.tidy.upperdir st.cache
    st.current
  refine ⟨c, hc, ?_⟩
  unfold earlySetupAppdir
  rw [h]
  change ((sameFsDetect dirs.tidy.lowerdir dirs.tidy.upperdir >>=
    afterDetect pid cfg dirs.tidy).run st.cache).exec fs.answer st.state = _
  rw [StateT.run_bind, exec_bind, hrun]

theorem setup_rest (st : Start fs) (pid : Nat) (h : resolveAppdir cfg = some dirs) :
    ∃ c, setup st pid cfg =
      (((afterDetect pid cfg dirs.tidy (detect fs st.state dirs.tidy.lowerdir
        dirs.tidy.upperdir)).run c).exec fs.answer st.state).1.1 := by
  obtain ⟨c, -, hrun⟩ := early_rest st pid h
  refine ⟨c, ?_⟩
  unfold setup
  rw [hrun]

theorem setup_none (h : resolveAppdir cfg = none) : setup st pid cfg = none := by
  unfold setup earlySetupAppdir
  rw [h]
  rfl

theorem setup_neg (h : resolveAppdir cfg = some dirs) (hneg : detected st cfg < 0) :
    setup st pid cfg = none := by
  obtain ⟨c, hrest⟩ := setup_rest st pid h
  rw [detected_eq h] at hneg
  rw [hrest, afterDetect, if_pos hneg]
  rfl

theorem setup_zero (h : resolveAppdir cfg = some dirs) (hzero : detected st cfg = 0) :
    setup st pid cfg = some dirs.tidy := by
  obtain ⟨c, hrest⟩ := setup_rest st pid h
  rw [detected_eq h] at hzero
  rw [hrest, afterDetect, if_neg (by omega), if_pos hzero]
  rfl

theorem setup_custom (h : resolveAppdir cfg = some dirs) (hpos : 0 < detected st cfg)
    (hupper : cfg.upperdir.isSome) : setup st pid cfg = none := by
  obtain ⟨c, hrest⟩ := setup_rest st pid h
  rw [detected_eq h] at hpos
  rw [hrest, afterDetect, if_neg (by omega), if_neg (by omega), if_pos hupper]
  rfl

theorem setup_moved (h : resolveAppdir cfg = some dirs) (hpos : 0 < detected st cfg)
    {placed : Dirs} (hdone : setup st pid cfg = some placed) :
    cfg.upperdir = none ∧ ∃ lp upper, loopFill dirs.appdir = some lp ∧
      loopDirsSet dirs.tidy cfg lp = some upper ∧
        InLoop dirs.tidy.workdir lp cfg.workdir.isSome placed := by
  obtain ⟨c, hrest⟩ := setup_rest st pid h
  have hupper : ¬ cfg.upperdir.isSome = true := fun hupper => by
    rw [setup_custom h hpos hupper] at hdone
    cases hdone
  refine ⟨Option.not_isSome_iff_eq_none.mp hupper, ?_⟩
  rw [detected_eq h] at hpos
  rw [hrest, afterDetect, if_neg (by omega), if_neg (by omega), if_neg hupper] at hdone
  cases hfill : loopFill dirs.tidy.appdir with
  | none =>
    rw [hfill] at hdone
    cases hdone
  | some lp =>
    rw [hfill] at hdone
    dsimp only at hdone
    cases hset : loopDirsSet dirs.tidy cfg lp with
    | none =>
      rw [hset] at hdone
      cases hdone
    | some upper =>
      refine ⟨lp, upper, hfill, hset, ?_⟩
      have hwork : upper.workdir = dirs.tidy.workdir := by
        unfold loopDirsSet at hset
        dsimp only at hset
        split at hset
        · split at hset
          · cases hset
          · cases hset
            rfl
        · split at hset
          · cases hset
          · cases hset
            rfl
      rw [hset] at hdone
      generalize (detect fs st.state dirs.tidy.lowerdir dirs.tidy.upperdir).2 = dev at hdone
      have hmoves : MovesTo (S := S) upper.workdir lp cfg.workdir.isSome
          (Steps.ioExists upper.upperdir >>= fun e =>
            if e = 0 then useProvisionedLoopback upper lp dev cfg.workdir.isSome
            else ensureExt4Mounted pid upper lp dev cfg.workdir.isSome) :=
        MovesTo.bind fun e =>
          MovesTo.ite (useProvisionedLoopback_moves dev) (ensureExt4Mounted_moves pid dev)
      rw [← hwork]
      exact Wp.exec fs.answer (fun _ _ => trivial) _ (hmoves c st.state trivial) placed hdone

end Runs

section Compared

variable {st pid cfg} {path : CStr} {n : Nat} {dirs dirs' : Dirs}

theorem tidy_upperdir (hupper : cfg.upperdir = none) (path : CStr) :
    (resolved cfg path).tidy.upperdir = path ++ slash :: lit "upper" := by
  change stripTrailingSlash (cfg.upperdir.getD _) = _
  rw [hupper]
  refine stripTrailingSlash_of_last ?_
  rw [Option.getD_none, List.getLast?_append_of_ne_nil _ (by decide)]
  decide

theorem detected_slashes (hpath : Named path) (hfile : NotFile st cfg path)
    (h : resolveAppdir (cfg.withAppdir path) = some dirs)
    (h' : resolveAppdir (cfg.withAppdir (withSlashes path n)) = some dirs') :
    detected st (cfg.withAppdir (withSlashes path n)) = detected st (cfg.withAppdir path) := by
  rw [detected_eq h, detected_eq h']
  obtain ⟨rfl, -, -⟩ := (resolveAppdir_some cfg).mp h
  obtain ⟨rfl, -, -⟩ := (resolveAppdir_some cfg).mp h'
  cases hupper : cfg.upperdir with
  | some u =>
    have hsame (path : CStr) : (resolved cfg path).tidy.upperdir = stripTrailingSlash u := by
      change stripTrailingSlash (cfg.upperdir.getD _) = _
      rw [hupper]
      rfl
    rw [hsame, hsame]
    rfl
  | none =>
    rw [tidy_upperdir hupper, tidy_upperdir hupper]
    exact congrArg Prod.fst (detect_slashes hpath.ne_nil (hfile hupper) (cfg.lowerdir.getD (lit "/")) n)

/-- With a slash at its end the appdir is no file. -/
theorem detected_file (hpath : Named path) (hfile : ¬ NotFile st cfg path)
    (hres : resolveAppdir (cfg.withAppdir (withSlashes path (n + 1))) = some dirs) :
    detected st (cfg.withAppdir (withSlashes path (n + 1))) < 0 := by
  unfold NotFile at hfile
  push Not at hfile
  obtain ⟨hupper, f, hf, hkind⟩ := hfile
  rw [detected_eq hres]
  obtain ⟨rfl, -, -⟩ := (resolveAppdir_some cfg).mp hres
  rw [tidy_upperdir hupper, detect_file hpath.ne_nil hf hkind]
  decide

theorem loopPaths_none (h : detected st cfg ≤ 0) : loopPaths st cfg = none :=
  if_neg (Int.not_lt_of_ge h)

theorem loopPaths_some {lp : Loop} (h : 0 < detected st cfg)
    (hres : resolveAppdir cfg = some dirs) (hfill : loopFill dirs.appdir = some lp) :
    loopPaths st cfg = some (lp.loopdir, lp.loopImg) := by
  unfold loopPaths
  rw [if_pos h, hres, Option.bind_eq_bind, Option.bind_some, hfill]
  rfl

theorem stripTrailingSlash_below {suffix : CStr} (hsuffix : suffix ≠ [])
    (hlast : suffix.getLast? ≠ some slash) (path : CStr) :
    stripTrailingSlash (path ++ slash :: suffix) = path ++ slash :: suffix := by
  refine stripTrailingSlash_of_last ?_
  rwa [List.getLast?_append_of_ne_nil _ (List.cons_ne_nil _ _),
    ← List.singleton_append, List.getLast?_append_of_ne_nil _ hsuffix]

/-- A directory of the configuration, or one below the appdir. -/
theorem samePath_getD (src : Option CStr) {suffix : CStr} (hsuffix : suffix ≠ [])
    (hlast : suffix.getLast? ≠ some slash) (path : CStr) (n : Nat) :
    SamePath (stripTrailingSlash (src.getD (path ++ slash :: suffix)))
      (stripTrailingSlash (src.getD (withSlashes path n ++ slash :: suffix))) := by
  cases src with
  | some p => rfl
  | none =>
    rw [Option.getD_none, Option.getD_none, stripTrailingSlash_below hsuffix hlast,
      stripTrailingSlash_below hsuffix hlast, withSlashes, List.append_assoc]
    exact SamePath.append rfl
      (samePath_slashes (fun c hc => List.eq_of_mem_replicate hc) suffix).symm

theorem alike_tidy (path : CStr) (n : Nat) {loop : Option (CStr × CStr)} (hloop : loop = none) :
    Placed.Alike
      ⟨(resolved cfg path).tidy.upperdir, (resolved cfg path).tidy.workdir, loop⟩
      ⟨(resolved cfg (withSlashes path n)).tidy.upperdir,
        (resolved cfg (withSlashes path n)).tidy.workdir, none⟩ where
  upperdir := samePath_getD cfg.upperdir (by decide) (by decide) path n
  workdir := samePath_getD cfg.workdir (by decide) (by decide) path n
  loop := by
    rw [hloop]
    exact Option.Rel.none

theorem placed_none (h : setup st pid cfg = none) : placed st pid cfg = none := by
  rw [placed, h, Option.map_none]

theorem placed_some (h : setup st pid cfg = some dirs) :
    placed st pid cfg = some ⟨dirs.upperdir, dirs.workdir, loopPaths st cfg⟩ := by
  rw [placed, h, Option.map_some]

theorem sameSetup_of_none (h : setup st pid (cfg.withAppdir path) = none)
    (h' : setup st pid (cfg.withAppdir (withSlashes path n)) = none) :
    SameSetup st pid cfg path n := by
  unfold SameSetup
  rw [placed_none h, placed_none h']
  exact Option.Rel.none

/-- Runs that succeed are compared by their places. -/
theorem sameSetup_iff_alike (h : setup st pid (cfg.withAppdir path) = some dirs)
    (h' : setup st pid (cfg.withAppdir (withSlashes path n)) = some dirs') :
    SameSetup st pid cfg path n ↔
      Placed.Alike ⟨dirs.upperdir, dirs.workdir, loopPaths st (cfg.withAppdir path)⟩
        ⟨dirs'.upperdir, dirs'.workdir, loopPaths st (cfg.withAppdir (withSlashes path n))⟩ := by
  unfold SameSetup
  rw [placed_some h, placed_some h']
  exact ⟨fun hrel => by cases hrel; assumption, Option.Rel.some⟩

theorem sameSetup_zero : SameSetup st pid cfg path 0 := by
  unfold SameSetup
  rw [withSlashes_zero]
  rcases placed st pid (cfg.withAppdir path) with _ | ⟨upperdir, workdir, _ | loop⟩
  · exact Option.Rel.none
  · exact Option.Rel.some ⟨rfl, rfl, Option.Rel.none⟩
  · exact Option.Rel.some ⟨rfl, rfl, Option.Rel.some ⟨rfl, rfl⟩⟩

theorem both_of_sameSetup (h : SameSetup st pid cfg path n)
    (hdone : (setup st pid (cfg.withAppdir path)).isSome ∨
      (setup st pid (cfg.withAppdir (withSlashes path n))).isSome) :
    ∃ dirs dirs', setup st pid (cfg.withAppdir path) = some dirs ∧
      setup st pid (cfg.withAppdir (withSlashes path n)) = some dirs' := by
  unfold SameSetup at h
  cases hplain : setup st pid (cfg.withAppdir path) with
  | none =>
    cases hlong : setup st pid (cfg.withAppdir (withSlashes path n)) with
    | none =>
      rw [hplain, hlong] at hdone
      simp at hdone
    | some dirs' =>
      rw [placed_none hplain, placed_some hlong] at h
      cases h
  | some dirs =>
    cases hlong : setup st pid (cfg.withAppdir (withSlashes path n)) with
    | none =>
      rw [placed_some hplain, placed_none hlong] at h
      cases h
    | some dirs' => exact ⟨dirs, dirs', rfl, rfl⟩

theorem resolved_of_setup (h : setup st pid (cfg.withAppdir path) = some dirs) :
    resolveAppdir (cfg.withAppdir path) = some (resolved cfg path) ∧ Fits cfg path := by
  cases hres : resolveAppdir (cfg.withAppdir path) with
  | none =>
    rw [setup_none hres] at h
    cases h
  | some d =>
    obtain ⟨rfl, hfits, -⟩ := (resolveAppdir_some cfg).mp hres
    exact ⟨rfl, hfits⟩

/-- A run that succeeds finds no conflict, or goes to a loop directory. -/
theorem goesToLoop_of_setup (h : setup st pid (cfg.withAppdir path) = some dirs)
    (hconflict : detected st (cfg.withAppdir path) ≠ 0) : GoesToLoop st cfg path := by
  have hres := (resolved_of_setup h).1
  rcases Int.lt_or_lt_of_ne hconflict with hneg | hpos
  · rw [setup_neg hres hneg] at h
    cases h
  · obtain ⟨hupper, lp, upper, hfill, hset, -⟩ := setup_moved hres hpos h
    exact ⟨hupper, hpos, lp, upper, hfill, hset⟩

theorem setup_stays (hconflict : detected st (cfg.withAppdir path) ≠ 0)
    (hloop : ¬ GoesToLoop st cfg path) : setup st pid (cfg.withAppdir path) = none :=
  Option.eq_none_iff_forall_ne_some.mpr fun _ h => hloop (goesToLoop_of_setup h hconflict)

theorem resolved_of_detected (h : 0 ≤ detected st (cfg.withAppdir path)) :
    resolveAppdir (cfg.withAppdir path) = some (resolved cfg path) ∧ Fits cfg path ∧
      OthersFit cfg := by
  cases hres : resolveAppdir (cfg.withAppdir path) with
  | none =>
    unfold detected at h
    rw [hres] at h
    have hneg : (0 : Int) ≤ -1 := h
    cases hneg
  | some d =>
    obtain ⟨rfl, hfits, hothers⟩ := (resolveAppdir_some cfg).mp hres
    exact ⟨rfl, hfits, hothers⟩

/-- Where `same_fs_detect` does not fail for the longer appdir, it says the same for both. -/
theorem detected_of_slashes (hpath : Named path)
    (h : 0 ≤ detected st (cfg.withAppdir (withSlashes path (n + 1)))) :
    NotFile st cfg path ∧ detected st (cfg.withAppdir (withSlashes path (n + 1))) =
      detected st (cfg.withAppdir path) := by
  obtain ⟨hres', hfits, hothers⟩ := resolved_of_detected h
  have hres := (resolveAppdir_some cfg).mpr ⟨rfl, hfits.of_withSlashes, hothers⟩
  have hfile : NotFile st cfg path := by
    by_contra hfile
    exact absurd (detected_file hpath hfile hres') (Int.not_lt.mpr h)
  exact ⟨hfile, detected_slashes hpath hfile hres hres'⟩

/-- No conflict is found with the slashes, if there is none without and they fit. -/
theorem detected_zero_iff (hpath : Named path) :
    detected st (cfg.withAppdir (withSlashes path (n + 1))) = 0 ↔
      detected st (cfg.withAppdir path) = 0 ∧ Fits cfg (withSlashes path (n + 1)) ∧
        NotFile st cfg path := by
  constructor
  · intro hzero
    obtain ⟨hfile, hsame⟩ := detected_of_slashes hpath hzero.ge
    exact ⟨hsame ▸ hzero, (resolved_of_detected hzero.ge).2.1, hfile⟩
  · rintro ⟨hzero, hfits, hfile⟩
    obtain ⟨hres, -, hothers⟩ := resolved_of_detected hzero.ge
    have hres' := (resolveAppdir_some cfg).mpr ⟨rfl, hfits, hothers⟩
    exact (detected_slashes hpath hfile hres hres').trans hzero

theorem sameSetup_of_zero (hzero : detected st (cfg.withAppdir path) = 0)
    (hzero' : detected st (cfg.withAppdir (withSlashes path n)) = 0) :
    SameSetup st pid cfg path n := by
  have hres := (resolved_of_detected hzero.ge).1
  have hres' := (resolved_of_detected hzero'.ge).1
  refine (sameSetup_iff_alike (setup_zero hres hzero) (setup_zero hres' hzero')).mpr ?_
  rw [loopPaths_none hzero'.le]
  exact alike_tidy path n (loopPaths_none hzero.le)

/-- Where both runs move, the places are compared by the loop file systems. -/
theorem moved_paths (hpath : Named path) (hfile : NotFile st cfg path)
    (h : setup st pid (cfg.withAppdir path) = some dirs)
    (h' : setup st pid (cfg.withAppdir (withSlashes path n)) = some dirs')
    (hpos : 0 < detected st (cfg.withAppdir path)) :
    ∃ lp lp', loopFill path = some lp ∧ loopFill (withSlashes path n) = some lp' ∧
      InLoop (resolved cfg path).tidy.workdir lp cfg.workdir.isSome dirs ∧
      InLoop (resolved cfg (withSlashes path n)).tidy.workdir lp' cfg.workdir.isSome dirs' ∧
      loopPaths st (cfg.withAppdir path) = some (lp.loopdir, lp.loopImg) ∧
      loopPaths st (cfg.withAppdir (withSlashes path n)) = some (lp'.loopdir, lp'.loopImg) := by
  have hres := (resolved_of_setup h).1
  have hres' := (resolved_of_setup h').1
  have hpos' := (detected_slashes hpath hfile hres hres').symm ▸ hpos
  obtain ⟨-, lp, -, hfill, -, hin⟩ := setup_moved hres hpos h
  obtain ⟨-, lp', -, hfill', -, hin'⟩ := setup_moved hres' hpos' h'
  exact ⟨lp, lp', hfill, hfill', hin, hin', loopPaths_some hpos hres hfill,
    loopPaths_some hpos' hres' hfill'⟩

theorem endsTwice_of_sameSetup (hpath : Named path) (hfile : NotFile st cfg path)
    (h : setup st pid (cfg.withAppdir path) = some dirs)
    (h' : setup st pid (cfg.withAppdir (withSlashes path (n + 1))) = some dirs')
    (hpos : 0 < detected st (cfg.withAppdir path)) (hsame : SameSetup st pid cfg path (n + 1)) :
    EndsTwice path := by
  obtain ⟨lp, lp', hfill, hfill', hin, hin', hloop, hloop'⟩ := moved_paths hpath hfile h h' hpos
  have halike := (sameSetup_iff_alike h h').mp hsame
  rw [hloop, hloop', hin.upperdir, hin'.upperdir] at halike
  have hdirs := halike.loop
  cases hdirs with
  | some hpaths => exact loopFill_differs hpath hfill hfill' hpaths.1 halike.upperdir

theorem sameSetup_of_endsTwice (hpath : Named path) (hfile : NotFile st cfg path)
    (h : setup st pid (cfg.withAppdir path) = some dirs)
    (h' : setup st pid (cfg.withAppdir (withSlashes path n)) = some dirs')
    (hpos : 0 < detected st (cfg.withAppdir path)) (htwice : EndsTwice path) :
    SameSetup st pid cfg path n := by
  obtain ⟨lp, lp', hfill, hfill', hin, hin', hloop, hloop'⟩ := moved_paths hpath hfile h h' hpos
  obtain ⟨hdir, himg, happ⟩ := loopFill_alike hpath htwice hfill hfill'
  refine (sameSetup_iff_alike h h').mpr ?_
  rw [hloop, hloop', hin.upperdir, hin'.upperdir, hin.workdir, hin'.workdir]
  refine ⟨happ.append rfl, ?_, Option.Rel.some ⟨hdir, himg⟩⟩
  split
  · exact samePath_getD cfg.workdir (by decide) (by decide) path n
  · exact happ.append rfl

/-- Where one of the runs goes to a loop directory and the longer appdir is set up, the
conflict is found for both. -/
theorem conflict_of_goesToLoop (hpath : Named path)
    (h' : setup st pid (cfg.withAppdir (withSlashes path (n + 1))) = some dirs')
    (hloop : GoesToLoop st cfg path ∨ GoesToLoop st cfg (withSlashes path (n + 1))) :
    NotFile st cfg path ∧ 0 < detected st (cfg.withAppdir path) := by
  have hfound : 0 ≤ detected st (cfg.withAppdir (withSlashes path (n + 1))) := by
    by_contra hneg
    rw [setup_neg (resolved_of_setup h').1 (Int.not_le.mp hneg)] at h'
    cases h'
  obtain ⟨hfile, hsame⟩ := detected_of_slashes hpath hfound
  refine ⟨hfile, ?_⟩
  rcases hloop with hloop | hloop
  · exact hloop.2.1
  · exact hsame ▸ hloop.2.1

end Compared

/-- The slashes are no concern: there are none, or neither run goes to a loop directory
and, where no conflict is found, the strings fit with them and the appdir is no file. -/
def SlashesHarmless (path : CStr) (n : Nat) : Prop :=
  n = 0 ∨ ¬ GoesToLoop st cfg path ∧ ¬ GoesToLoop st cfg (withSlashes path n) ∧
    (detected st (cfg.withAppdir path) = 0 →
      Fits cfg (withSlashes path n) ∧ NotFile st cfg path)

/-- When slashes behind the appdir make no difference. Where they are harmless the runs
agree, and where neither goes to a loop directory, only there. Where one does, they agree
only if there are no slashes, if both fail, or if both succeed and the appdir ends in two
slashes anyhow. -/
theorem sameSetup_exact (path : CStr) (n : Nat) (hpath : Named path) :
    (SlashesHarmless st cfg path n → SameSetup st pid cfg path n) ∧
      (¬ GoesToLoop st cfg path → ¬ GoesToLoop st cfg (withSlashes path n) →
        SameSetup st pid cfg path n → SlashesHarmless st cfg path n) ∧
      (GoesToLoop st cfg path ∨ GoesToLoop st cfg (withSlashes path n) →
        (SameSetup st pid cfg path n ↔ n = 0 ∨
          setup st pid (cfg.withAppdir path) = none ∧
            setup st pid (cfg.withAppdir (withSlashes path n)) = none ∨
          (setup st pid (cfg.withAppdir path)).isSome ∧
            (setup st pid (cfg.withAppdir (withSlashes path n))).isSome ∧ EndsTwice path)) := by
  cases n with
  | zero => exact ⟨fun _ => sameSetup_zero, fun _ _ _ => .inl rfl, fun _ =>
      ⟨fun _ => .inl rfl, fun _ => sameSetup_zero⟩⟩
  | succ n =>
    refine ⟨?_, fun hloop hloop' hsame => ?_, fun hloop => ⟨fun hsame => ?_, ?_⟩⟩
    · rintro (hnone | ⟨hloop, hloop', hharmless⟩)
      · cases hnone
      by_cases hzero : detected st (cfg.withAppdir path) = 0
      · exact sameSetup_of_zero hzero ((detected_zero_iff hpath).mpr ⟨hzero, hharmless hzero⟩)
      · have hzero' : detected st (cfg.withAppdir (withSlashes path (n + 1))) ≠ 0 :=
          fun h => hzero ((detected_zero_iff hpath).mp h).1
        exact sameSetup_of_none (setup_stays hzero hloop) (setup_stays hzero' hloop')
    · refine .inr ⟨hloop, hloop', fun hzero => ?_⟩
      have hdone : setup st pid (cfg.withAppdir path) = some _ :=
        setup_zero (resolved_of_detected hzero.ge).1 hzero
      obtain ⟨dirs, dirs', -, h'⟩ := both_of_sameSetup hsame (.inl (by rw [hdone]; rfl))
      have hzero' : detected st (cfg.withAppdir (withSlashes path (n + 1))) = 0 := by
        by_contra hconflict
        exact hloop' (goesToLoop_of_setup h' hconflict)
      exact ((detected_zero_iff hpath).mp hzero').2
    · refine .inr ?_
      by_cases hdone : (setup st pid (cfg.withAppdir path)).isSome ∨
          (setup st pid (cfg.withAppdir (withSlashes path (n + 1)))).isSome
      · obtain ⟨dirs, dirs', h, h'⟩ := both_of_sameSetup hsame hdone
        obtain ⟨hfile, hpos⟩ := conflict_of_goesToLoop hpath h' hloop
        exact .inr ⟨by rw [h]; rfl, by rw [h']; rfl,
          endsTwice_of_sameSetup hpath hfile h h' hpos hsame⟩
      · rw [not_or, Option.not_isSome_iff_eq_none, Option.not_isSome_iff_eq_none] at hdone
        exact .inl hdone
    · rintro (hnone | ⟨h, h'⟩ | ⟨hdone, hdone', htwice⟩)
      · cases hnone
      · exact sameSetup_of_none h h'
      · obtain ⟨dirs, h⟩ := Option.isSome_iff_exists.mp hdone
        obtain ⟨dirs', h'⟩ := Option.isSome_iff_exists.mp hdone'
        obtain ⟨hfile, hpos⟩ := conflict_of_goesToLoop hpath h' hloop
        exact sameSetup_of_endsTwice hpath hfile h h' hpos htwice

/-- What a call gets that the host refuses. -/
def refused : (k : Call) → k.Ret
  | .access _ | .mkdir _ _ | .unlink _ | .rename _ _ | .mountLoop _ _ | .mount _ _ _ _ => some .other
  | .stat _ | .lstat _ => .error .other
  | .statfs _ | .create _ _ | .openRead _ | .openRw _ | .fstat _ | .loopFree => none
  | .ftruncate _ _ | .loopSet _ _ => false
  | .file _ (.pread n _) => (-1, Lib.Buffer.make n fun _ => 0)
  | .file _ (.pwrite _ _ _) => -1
  | .file _ (.calloc _) => false
  | .close _ | .loopClose _ => ()
  | .getrandom _ => none
  | .time => 0

def loopDir (path : CStr) : Except Errno Found :=
  if squeeze path ∈ [lit "/", lit "/a", lit "/a/b"] then .ok ⟨1, .dir, 0xef53⟩
  else if squeeze path ∈ [lit "/a-loop", lit "/a-loop/b", lit "/a-loop/b/upper", lit "/a/b-loop",
    lit "/a/b-loop/upper"] then .ok ⟨2, .dir, 0xef53⟩
  else .error .enoent

/-- A read-only host with a loop file system for each spelling of the appdir. -/
def twoLoops : FileSystem Unit where
  find _ path := loopDir path
  other
    | .lstat path, s => ((loopDir path).map fun f => { dev := f.dev, kind := f.kind }, s)
    | k, s => (refused k, s)

def twoLoopsStart : Start twoLoops where
  state := ()
  cache := emptyCache
  current p r h := by
    have hnone := List.eq_of_mem_replicate h
    cases hnone

def plainCfg : Cfg := { appdir := none, name := none, upperdir := none, workdir := none, lowerdir := none }

theorem named_ab : Named (lit "/a/b") := ⟨97, by decide, by decide⟩

theorem sameSetup_exact_sibling :
    SameSetup twoLoopsStart 7 { plainCfg with lowerdir := some (lit "/a-loop") } (lit "/a/b") 2 := by
  refine (sameSetup_exact twoLoopsStart 7 { plainCfg with lowerdir := some (lit "/a-loop") }
    (lit "/a/b") 2 named_ab).1 (.inr ⟨?_, ?_, fun _ =>
      ⟨⟨by decide, fun _ => by decide, fun _ => by decide⟩, ?_⟩⟩)
  · exact fun hloop => absurd hloop.2.1 (by decide +kernel)
  · exact fun hloop => absurd hloop.2.1 (by decide +kernel)
  · rintro - f hf
    have hfound : twoLoops.resolve () (lit "/a/b") = .ok ⟨1, .dir, 0xef53⟩ := by rfl
    cases hfound.symm.trans hf
    rfl

/-- With `-a /a/b/` the data goes to another image than with `-a /a/b`. -/
theorem sameSetup_lost : Named (lit "/a/b") ∧ ¬ SameSetup twoLoopsStart 7 plainCfg (lit "/a/b") 1 := by
  refine ⟨named_ab, fun hsame => ?_⟩
  have hplain : setup twoLoopsStart 7 (plainCfg.withAppdir (lit "/a/b")) = some
      { appdir := lit "/a-loop/b", upperdir := lit "/a-loop/b/upper",
        workdir := lit "/a-loop/b/work", lowerdir := lit "/", dirsCreated := true } := by
    decide +kernel
  have hslash : setup twoLoopsStart 7 (plainCfg.withAppdir (withSlashes (lit "/a/b") 1)) = some
      { appdir := lit "/a/b-loop/", upperdir := lit "/a/b-loop//upper",
        workdir := lit "/a/b-loop//work", lowerdir := lit "/", dirsCreated := true } := by
    decide +kernel
  have hupper := ((sameSetup_iff_alike hplain hslash).mp hsame).upperdir
  revert hupper
  decide

end Cage.Sandbox
