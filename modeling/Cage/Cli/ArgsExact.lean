import Cage.Cli.Args
import Cage.Cli.Grammar

/-!
`cage_parse_args` takes exactly the command lines that can be read as options and a
command, within the limits of the program, and fills in what they say.
-/

namespace Cage.Cli

open Util

/-- The argument of the last option with that letter. -/
def lastArg (c : UInt8) (otherwise : Option CStr) (given : List Given) : Option CStr :=
  given.foldl (fun last g => if g.1 = c then g.2 else last) otherwise

/-- The arguments of the options with that letter, in their order. -/
def argsOf (c : UInt8) (given : List Given) : List CStr :=
  given.filterMap fun g => if g.1 = c then g.2 else none

def has (c : UInt8) (given : List Given) : Bool := given.any fun g => g.1 = c

/-- The configuration with what the options say. -/
def CageConfig.filled (cfg : CageConfig) (given : List Given) : CageConfig where
  appdir := lastArg (chr 'a') cfg.appdir given
  unshareCgroup := cfg.unshareCgroup || has (chr 'C') given
  currentdir := lastArg (chr 'c') cfg.currentdir given
  envvars := cfg.envvars ++ argsOf (chr 'e') given
  graphical := cfg.graphical || has (chr 'G') given
  group := lastArg (chr 'g') cfg.group given
  showHelp := cfg.showHelp || has (chr 'h') given
  initscript := lastArg (chr 'i') cfg.initscript given
  killMode := cfg.killMode || has (chr 'k') given
  lowerdir := lastArg (chr 'l') cfg.lowerdir given
  unshareNet := cfg.unshareNet || has (chr 'N') given
  name := lastArg (chr 'n') cfg.name given
  pidfile := lastArg (chr 'p') cfg.pidfile given
  upperdir := lastArg (chr 'U') cfg.upperdir given
  user := lastArg (chr 'u') cfg.user given
  showVersion := cfg.showVersion || has (chr 'V') given
  volumes := cfg.volumes ++ argsOf (chr 'v') given
  workdir := lastArg (chr 'w') cfg.workdir given
  hasDashdash := cfg.hasDashdash
  command := cfg.command

/-- What the program has room for, and takes for a name. -/
structure Room (cfg : CageConfig) (given : List Given) : Prop where
  envvars : cfg.envvars.length + (argsOf (chr 'e') given).length ≤ cageMaxEnvvars
  volumes : cfg.volumes.length + (argsOf (chr 'v') given).length ≤ cageMaxVolumes
  names : ∀ name ∈ argsOf (chr 'n') given, name ≠ [] ∧ chr '/' ∉ name

/-- No more than there is room for. -/
structure Within (cfg : CageConfig) : Prop where
  envvars : cfg.envvars.length ≤ cageMaxEnvvars
  volumes : cfg.volumes.length ≤ cageMaxVolumes

/-- The options one after the other, up to the first that is refused. -/
def handleAll : CageConfig → List Given → Int × CageConfig
  | cfg, [] => (0, cfg)
  | cfg, g :: gs =>
      let r := handleOpt cfg (.opt g.1 g.2)
      if r.1 ≠ 0 then r else handleAll r.2 gs

/-- The option has an argument if it takes one. -/
def Fits (g : Given) : Prop := options.short g.1 = some g.2.isSome

section Handlers

variable {cfg cfg' out : CageConfig} {g : Given} {gs : List Given}

theorem options_sane : options.Sane := ⟨rfl, rfl⟩

/-- The letters, and whether they take an argument. -/
def letters : List (UInt8 × Bool) :=
  [(chr 'e', true), (chr 'v', true), (chr 'n', true), (chr 'a', true), (chr 'c', true), (chr 'g', true),
    (chr 'i', true), (chr 'l', true), (chr 'p', true), (chr 'U', true), (chr 'u', true), (chr 'w', true),
    (chr 'C', false), (chr 'G', false), (chr 'h', false), (chr 'k', false), (chr 'N', false), (chr 'V', false)]

theorem short_mem : ∀ c : Fin 256, ∀ takes, options.short (UInt8.ofFin c) = some takes →
    (UInt8.ofFin c, takes) ∈ letters := by decide +kernel

theorem short_letters {c : UInt8} {takes : Bool} (h : options.short c = some takes) : (c, takes) ∈ letters :=
  short_mem c.toFin takes h

theorem longOpts_fit : ∀ l ∈ longOpts, options.short l.val = some l.hasArg := by decide +kernel

theorem handleAll_taken (hstep : handleOpt cfg (.opt g.1 g.2) = (0, cfg'))
    (hroom : Room cfg' gs ↔ Room cfg (g :: gs)) (hfilled : cfg'.filled gs = cfg.filled (g :: gs))
    (ih : handleAll cfg' gs = (0, out) ↔ Room cfg' gs ∧ out = cfg'.filled gs) :
    handleAll cfg (g :: gs) = (0, out) ↔ Room cfg (g :: gs) ∧ out = cfg.filled (g :: gs) := by
  have hall : handleAll cfg (g :: gs) = handleAll cfg' gs := by
    rw [handleAll, hstep]
    exact if_neg (not_not_intro rfl)
  rw [hall, ih, hroom, hfilled]

theorem handleAll_refused (hstep : handleOpt cfg (.opt g.1 g.2) = (-1, cfg))
    (hroom : ¬ Room cfg (g :: gs)) :
    handleAll cfg (g :: gs) = (0, out) ↔ Room cfg (g :: gs) ∧ out = cfg.filled (g :: gs) := by
  have hall : handleAll cfg (g :: gs) = (-1, cfg) := by
    rw [handleAll, hstep]
    rfl
  rw [hall]
  exact ⟨fun h => absurd (congrArg Prod.fst h) (by decide : (-1 : Int) ≠ 0), fun h => absurd h.1 hroom⟩

/-- An option that has nothing to do with the limits. -/
theorem room_plain (henv : cfg'.envvars = cfg.envvars) (hvol : cfg'.volumes = cfg.volumes)
    (he : argsOf (chr 'e') (g :: gs) = argsOf (chr 'e') gs)
    (hv : argsOf (chr 'v') (g :: gs) = argsOf (chr 'v') gs)
    (hn : argsOf (chr 'n') (g :: gs) = argsOf (chr 'n') gs) : Room cfg' gs ↔ Room cfg (g :: gs) := by
  constructor
  · rintro ⟨h1, h2, h3⟩
    exact ⟨by rw [he, ← henv]; exact h1, by rw [hv, ← hvol]; exact h2, by rw [hn]; exact h3⟩
  · rintro ⟨h1, h2, h3⟩
    exact ⟨by rw [henv, ← he]; exact h1, by rw [hvol, ← hv]; exact h2, by rw [← hn]; exact h3⟩

theorem argsOf_cons (c : UInt8) (arg : CStr) (gs : List Given) :
    argsOf c ((c, some arg) :: gs) = arg :: argsOf c gs :=
  List.filterMap_cons_some (if_pos rfl)

theorem has_cons (c : UInt8) (arg : Option CStr) (gs : List Given) : has c ((c, arg) :: gs) = true := by
  simp [has]

/-- One more in a list that has room for it. -/
theorem append_room (xs : List CStr) (x : CStr) (n k : Nat) :
    (xs ++ [x]).length + n ≤ k ↔ xs.length + (n + 1) ≤ k := by
  rw [List.length_append, List.length_singleton, Nat.add_assoc, Nat.add_comm 1 n]

theorem handleAll_env (arg : CStr) (hin : Within cfg)
    (ih : ∀ cfg', Within cfg' → (handleAll cfg' gs = (0, out) ↔ Room cfg' gs ∧ out = cfg'.filled gs)) :
    handleAll cfg ((chr 'e', some arg) :: gs) = (0, out) ↔
      Room cfg ((chr 'e', some arg) :: gs) ∧ out = cfg.filled ((chr 'e', some arg) :: gs) := by
  have hargs := argsOf_cons (chr 'e') arg gs
  by_cases hfull : cfg.envvars.length ≥ cageMaxEnvvars
  · refine handleAll_refused (if_pos hfull) fun hroom => ?_
    have hle := hroom.envvars
    rw [hargs, List.length_cons] at hle
    omega
  · refine handleAll_taken (if_neg hfull) ?_ ?_ (ih _ ⟨?_, hin.volumes⟩)
    · constructor
      · rintro ⟨h1, h2, h3⟩
        exact ⟨by rw [hargs]; exact (append_room ..).mp h1, h2, h3⟩
      · rintro ⟨h1, h2, h3⟩
        rw [hargs] at h1
        exact ⟨(append_room ..).mpr h1, h2, h3⟩
    · unfold CageConfig.filled
      rw [hargs]
      simp only [Option.toList_some, List.append_assoc, List.singleton_append]
      rfl
    · exact (append_room _ arg 0 _).mpr (by omega)

theorem handleAll_volume (arg : CStr) (hin : Within cfg)
    (ih : ∀ cfg', Within cfg' → (handleAll cfg' gs = (0, out) ↔ Room cfg' gs ∧ out = cfg'.filled gs)) :
    handleAll cfg ((chr 'v', some arg) :: gs) = (0, out) ↔
      Room cfg ((chr 'v', some arg) :: gs) ∧ out = cfg.filled ((chr 'v', some arg) :: gs) := by
  have hargs := argsOf_cons (chr 'v') arg gs
  by_cases hfull : cfg.volumes.length ≥ cageMaxVolumes
  · refine handleAll_refused (if_pos hfull) fun hroom => ?_
    have hle := hroom.volumes
    rw [hargs, List.length_cons] at hle
    omega
  · refine handleAll_taken (if_neg hfull) ?_ ?_ (ih _ ⟨hin.envvars, ?_⟩)
    · constructor
      · rintro ⟨h1, h2, h3⟩
        exact ⟨h1, by rw [hargs]; exact (append_room ..).mp h2, h3⟩
      · rintro ⟨h1, h2, h3⟩
        rw [hargs] at h2
        exact ⟨h1, (append_room ..).mpr h2, h3⟩
    · unfold CageConfig.filled
      rw [hargs]
      simp only [Option.toList_some, List.append_assoc, List.singleton_append]
      rfl
    · exact (append_room _ arg 0 _).mpr (by omega)

theorem strchr_mem {s : CStr} {c : UInt8} : strchr s c ≠ none ↔ c ∈ s := by
  constructor
  · intro h
    by_contra hno
    exact h (strchr_none hno)
  · intro h
    obtain ⟨a, b, rfl, ha⟩ := List.eq_append_cons_of_mem h
    rw [strchr_append ha]
    exact Option.some_ne_none _

theorem handleAll_name (arg : CStr) (hin : Within cfg)
    (ih : ∀ cfg', Within cfg' → (handleAll cfg' gs = (0, out) ↔ Room cfg' gs ∧ out = cfg'.filled gs)) :
    handleAll cfg ((chr 'n', some arg) :: gs) = (0, out) ↔
      Room cfg ((chr 'n', some arg) :: gs) ∧ out = cfg.filled ((chr 'n', some arg) :: gs) := by
  have hargs := argsOf_cons (chr 'n') arg gs
  by_cases hbad : arg = [] ∨ strchr arg (chr '/') ≠ none
  · refine handleAll_refused (if_pos hbad) fun hroom => ?_
    have hname := hroom.names arg (hargs ▸ List.mem_cons_self)
    rcases hbad with hnil | hslash
    · exact hname.1 hnil
    · exact hname.2 (strchr_mem.mp hslash)
  · refine handleAll_taken (if_neg hbad) ?_ rfl (ih _ ⟨hin.envvars, hin.volumes⟩)
    have hgood : arg ≠ [] ∧ chr '/' ∉ arg :=
      ⟨fun h => hbad (.inl h), fun h => hbad (.inr (strchr_mem.mpr h))⟩
    constructor
    · rintro ⟨h1, h2, h3⟩
      exact ⟨h1, h2, by rw [hargs]; exact List.forall_mem_cons.mpr ⟨hgood, h3⟩⟩
    · rintro ⟨h1, h2, h3⟩
      rw [hargs] at h3
      exact ⟨h1, h2, (List.forall_mem_cons.mp h3).2⟩

/-- What is left to do behind a set-up that fills in one field. -/
theorem handleAll_set (hstep : handleOpt cfg (.opt g.1 g.2) = (0, cfg'))
    (henv : cfg'.envvars = cfg.envvars) (hvol : cfg'.volumes = cfg.volumes)
    (he : argsOf (chr 'e') (g :: gs) = argsOf (chr 'e') gs)
    (hv : argsOf (chr 'v') (g :: gs) = argsOf (chr 'v') gs)
    (hn : argsOf (chr 'n') (g :: gs) = argsOf (chr 'n') gs)
    (hfilled : cfg'.filled gs = cfg.filled (g :: gs)) (hin : Within cfg)
    (ih : ∀ cfg', Within cfg' → (handleAll cfg' gs = (0, out) ↔ Room cfg' gs ∧ out = cfg'.filled gs)) :
    handleAll cfg (g :: gs) = (0, out) ↔ Room cfg (g :: gs) ∧ out = cfg.filled (g :: gs) :=
  handleAll_taken hstep (room_plain henv hvol he hv hn) hfilled
    (ih cfg' ⟨henv ▸ hin.envvars, hvol ▸ hin.volumes⟩)

/-- A flag that is set stays set. -/
theorem flag_filled (b : Bool) (c : UInt8) (arg : Option CStr) (gs : List Given) :
    (true || has c gs) = (b || has c ((c, arg) :: gs)) := by
  rw [has_cons, Bool.true_or, Bool.or_true]

/-- The options are all taken if there is room for them, and what they say is filled in. -/
theorem handleAll_exact (given : List Given) : ∀ cfg : CageConfig, (∀ g ∈ given, Fits g) → Within cfg →
    (handleAll cfg given = (0, out) ↔ Room cfg given ∧ out = cfg.filled given) := by
  induction given with
  | nil =>
    intro cfg _ hin
    have hroom : Room cfg [] := ⟨hin.envvars, hin.volumes, List.forall_mem_nil _⟩
    have hfilled : cfg.filled [] = cfg := by
      unfold CageConfig.filled
      simp only [has, argsOf, lastArg, List.any_nil, List.filterMap_nil, List.foldl_nil, Bool.or_false,
        List.append_nil]
    rw [hfilled]
    exact ⟨fun h => ⟨hroom, (congrArg Prod.snd h).symm⟩, fun h => congrArg _ h.2.symm⟩
  | cons g gs ih =>
    intro cfg hfits hin
    have ih' := fun cfg' => ih cfg' fun g' hg' => hfits g' (List.mem_cons_of_mem g hg')
    have hfit := hfits g List.mem_cons_self
    obtain ⟨c, arg⟩ := g
    have hletter := short_letters hfit
    simp only [letters, List.mem_cons, Prod.mk.injEq, List.not_mem_nil, or_false] at hletter
    rcases hletter with ⟨rfl, harg⟩ | ⟨rfl, harg⟩ | ⟨rfl, harg⟩ | ⟨rfl, harg⟩ | ⟨rfl, harg⟩ | ⟨rfl, harg⟩ |
      ⟨rfl, harg⟩ | ⟨rfl, harg⟩ | ⟨rfl, harg⟩ | ⟨rfl, harg⟩ | ⟨rfl, harg⟩ | ⟨rfl, harg⟩ | ⟨rfl, -⟩ |
      ⟨rfl, -⟩ | ⟨rfl, -⟩ | ⟨rfl, -⟩ | ⟨rfl, -⟩ | ⟨rfl, -⟩
    · obtain ⟨x, rfl⟩ := Option.isSome_iff_exists.mp harg
      exact handleAll_env x hin ih'
    · obtain ⟨x, rfl⟩ := Option.isSome_iff_exists.mp harg
      exact handleAll_volume x hin ih'
    · obtain ⟨x, rfl⟩ := Option.isSome_iff_exists.mp harg
      exact handleAll_name x hin ih'
    · exact handleAll_set rfl rfl rfl rfl rfl rfl rfl hin ih'
    · exact handleAll_set rfl rfl rfl rfl rfl rfl rfl hin ih'
    · exact handleAll_set rfl rfl rfl rfl rfl rfl rfl hin ih'
    · exact handleAll_set rfl rfl rfl rfl rfl rfl rfl hin ih'
    · exact handleAll_set rfl rfl rfl rfl rfl rfl rfl hin ih'
    · exact handleAll_set rfl rfl rfl rfl rfl rfl rfl hin ih'
    · exact handleAll_set rfl rfl rfl rfl rfl rfl rfl hin ih'
    · exact handleAll_set rfl rfl rfl rfl rfl rfl rfl hin ih'
    · exact handleAll_set rfl rfl rfl rfl rfl rfl rfl hin ih'
    · exact handleAll_set rfl rfl rfl rfl rfl rfl
        (congrArg (fun b => { cfg.filled gs with unshareCgroup := b }) (flag_filled cfg.unshareCgroup (chr 'C') arg gs)) hin ih'
    · exact handleAll_set rfl rfl rfl rfl rfl rfl
        (congrArg (fun b => { cfg.filled gs with graphical := b }) (flag_filled cfg.graphical (chr 'G') arg gs)) hin ih'
    · exact handleAll_set rfl rfl rfl rfl rfl rfl
        (congrArg (fun b => { cfg.filled gs with showHelp := b }) (flag_filled cfg.showHelp (chr 'h') arg gs)) hin ih'
    · exact handleAll_set rfl rfl rfl rfl rfl rfl
        (congrArg (fun b => { cfg.filled gs with killMode := b }) (flag_filled cfg.killMode (chr 'k') arg gs)) hin ih'
    · exact handleAll_set rfl rfl rfl rfl rfl rfl
        (congrArg (fun b => { cfg.filled gs with unshareNet := b }) (flag_filled cfg.unshareNet (chr 'N') arg gs)) hin ih'
    · exact handleAll_set rfl rfl rfl rfl rfl rfl
        (congrArg (fun b => { cfg.filled gs with showVersion := b }) (flag_filled cfg.showVersion (chr 'V') arg gs)) hin ih'

theorem fits_letters {cs : CStr} (hcs : ∀ c ∈ cs, options.short c = some false) :
    ∀ g ∈ cs.map fun c => ((c, none) : Given), Fits g := by
  intro g hg
  obtain ⟨c, hc, rfl⟩ := List.mem_map.mp hg
  exact hcs c hc

theorem fits_long {w : CStr} {l : LongOpt} {arg : Option CStr} (hl : options.long w = some l)
    (harg : l.hasArg = arg.isSome) : Fits (l.val, arg) := by
  have hmem : l ∈ longOpts := by
    unfold Options.long at hl
    split at hl
    · rename_i l' hfind
      cases hl
      exact List.mem_of_find?_eq_some hfind
    · split at hl
      · rename_i l' hfilter
        cases hl
        exact (List.mem_filter.mp (hfilter ▸ List.mem_singleton_self l)).1
      · cases hl
  exact (longOpts_fit l hmem).trans (congrArg some harg)

theorem Item.fits (item : Item options) : ∀ g ∈ item.given, Fits g := by
  cases item with
  | flags cs hne hcs => exact fits_letters hcs
  | attached cs c arg hcs hc _ =>
    exact List.forall_mem_append.mpr ⟨fits_letters hcs, List.forall_mem_singleton.mpr hc⟩
  | separate cs c arg hcs hc =>
    exact List.forall_mem_append.mpr ⟨fits_letters hcs, List.forall_mem_singleton.mpr hc⟩
  | word w l _ hl harg => exact List.forall_mem_singleton.mpr (fits_long hl harg)
  | wordEquals w arg l _ hl harg => exact List.forall_mem_singleton.mpr (fits_long hl harg)
  | wordSeparate w arg l _ hl harg => exact List.forall_mem_singleton.mpr (fits_long hl harg)

theorem Reading.fits (r : Reading options) : ∀ g ∈ r.given, Fits g := by
  intro g hg
  obtain ⟨item, -, hmem⟩ := List.mem_flatMap.mp hg
  exact item.fits g hmem

end Handlers

/-- What the options of a reading say, on top of what holds without them. -/
def Reading.asked (r : Reading options) : CageConfig :=
  { cageConfigInit.filled r.given with hasDashdash := r.tail.dashed }

def Reading.config (r : Reading options) : CageConfig := { r.asked with command := r.tail.command }

/-- The program has room for it, and the name can be one. -/
structure Reading.Allowed (r : Reading options) : Prop where
  room : Room cageConfigInit r.given
  command : r.tail.command.length ≤ cageMaxCmdArgs

section Loop

variable {argv : List CStr}

/-- The loop handles what the calls find, and ends where they do. -/
theorem parseLoop_all {rounds : Nat} {g : Getopt} {given : List Given} {e : Option (Nat × Nat)}
    (cfg : CageConfig) (h : getoptAll options argv rounds g = some (given, e)) :
    (∃ prev optind, (handleAll cfg given).1 = 0 ∧ e = some (prev, optind) ∧
      parseLoop argv rounds g g.optind cfg = some (0, (handleAll cfg given).2, prev, optind)) ∨
    (¬ ((handleAll cfg given).1 = 0 ∧ e ≠ none) ∧ ∃ r cfg' prev optind, r ≠ 0 ∧
      parseLoop argv rounds g g.optind cfg = some (r, cfg', prev, optind)) := by
  induction rounds generalizing g given cfg with
  | zero => cases h
  | succ rounds ih =>
    rw [getoptAll] at h
    rw [parseLoop]
    cases hfound : getoptLong options argv g with
    | mk found g' =>
      rw [hfound] at h
      cases found with
      | done =>
        cases h
        exact .inl ⟨g.optind, g'.optind, rfl, rfl, rfl⟩
      | missing =>
        cases h
        exact .inr ⟨fun hno => hno.2 rfl, -1, cfg, g.optind, g'.optind, by decide, rfl⟩
      | unknown =>
        cases h
        exact .inr ⟨fun hno => hno.2 rfl, -1, cfg, g.optind, g'.optind, by decide, rfl⟩
      | opt c optarg =>
        obtain ⟨⟨given', e'⟩, hrest, heq⟩ := Option.map_eq_some_iff.mp h
        cases heq
        dsimp only
        by_cases hzero : (handleOpt cfg (.opt c optarg)).1 ≠ 0
        · have hall : handleAll cfg ((c, optarg) :: given') = handleOpt cfg (.opt c optarg) := if_pos hzero
          rw [if_pos hzero, hall]
          exact .inr ⟨fun hno => hzero hno.1, _, _, _, _, hzero, rfl⟩
        · have hall : handleAll cfg ((c, optarg) :: given') =
              handleAll (handleOpt cfg (.opt c optarg)).2 given' := if_neg hzero
          rw [if_neg hzero, hall]
          exact ih _ hrest

theorem collectCommands_exact (args : List CStr) : ∀ cfg : CageConfig, cfg.command.length ≤ cageMaxCmdArgs →
    ((collectCommands cfg args).1 = 0 ↔ cfg.command.length + args.length ≤ cageMaxCmdArgs) ∧
      ((collectCommands cfg args).1 = 0 →
        (collectCommands cfg args).2 = { cfg with command := cfg.command ++ args }) := by
  induction args with
  | nil =>
    intro cfg hle
    exact ⟨⟨fun _ => hle, fun _ => rfl⟩, fun _ => by rw [List.append_nil]; rfl⟩
  | cons arg args ih =>
    intro cfg hle
    unfold collectCommands
    by_cases hfull : cfg.command.length ≥ cageMaxCmdArgs
    · rw [if_pos hfull, List.length_cons]
      exact ⟨⟨fun h => absurd h (by decide : (-1 : Int) ≠ 0), fun h => by omega⟩,
        fun h => absurd h (by decide : (-1 : Int) ≠ 0)⟩
    · rw [if_neg hfull]
      obtain ⟨hcode, hcfg⟩ := ih { cfg with command := cfg.command ++ [arg] }
        ((append_room _ arg 0 _).mpr (by omega))
      refine ⟨hcode.trans (append_room ..), fun h => ?_⟩
      rw [hcfg h, List.append_assoc]
      rfl

/-- The separator is told from an argument that looks like it. -/
theorem dashdash_tail {r : Reading options} {i : Nat} {e : Nat × Nat} (hends : r.Ends i e)
    (hdrop : argv.drop i = r.render) (hi : i ≥ 1) :
    (e.1 ≥ 1 ∧ e.1 < argv.length ∧ e.2 = e.1 + 1 ∧ argv[e.1]? = some [dash, dash]) ↔
      r.tail.dashed = true := by
  have hbehind := hends.behind hdrop
  have hfirst := hends.first
  have hsecond := hends.second
  rw [← List.head?_drop, hbehind]
  cases htail : r.tail with
  | dashes cmd =>
    rw [htail] at hbehind hsecond
    have hlt : e.1 < argv.length := by
      by_contra hge
      rw [List.drop_eq_nil_of_le (Nat.le_of_not_lt hge)] at hbehind
      cases hbehind
    exact ⟨fun _ => rfl, fun _ => ⟨by omega, hlt, hsecond, rfl⟩⟩
  | plain cmd hcmd =>
    rw [htail] at hsecond
    have hsecond : e.2 = e.1 := hsecond
    exact ⟨fun h => absurd h.2.2.1 (by omega), fun h => nomatch h⟩

end Loop

/-- For every command line: it is taken exactly if it can be read, in whatever spelling of the
options, within the limits; and then the configuration is what any reading of it says. -/
theorem cageParseArgs_exact (prog : CStr) (args : List CStr) :
    ∃ r cfg, cageParseArgs cageConfigInit (prog :: args) = some (r, cfg) ∧
      (r = 0 ↔ ∃ reading : Reading options, args = reading.render ∧ reading.Allowed) ∧
      (r = 0 → ∀ reading : Reading options, args = reading.render → cfg = reading.config) := by
  have hsize : size ((prog :: args).drop 1) < parseRounds (prog :: args) := by
    have hcons := size_cons prog args
    show size args < size (prog :: args) + 1
    omega
  obtain ⟨⟨⟨given, e⟩, hall⟩, hsound, hcomplete⟩ := all_exact options_sane hsize
  have hin : Within cageConfigInit := ⟨Nat.zero_le _, Nat.zero_le _⟩
  rcases parseLoop_all cageConfigInit hall with ⟨prev, optind, hzero, rfl, hloop⟩ |
    ⟨hno, r, cfg, prev, optind, hr, hloop⟩
  · obtain ⟨r₀, hdrop, rfl, hends⟩ := hsound given (prev, optind) hall
    have hhandled : handleAll cageConfigInit r₀.given = (0, (handleAll cageConfigInit r₀.given).2) :=
      Prod.ext hzero rfl
    obtain ⟨hroom, hfilled⟩ := (handleAll_exact r₀.given cageConfigInit r₀.fits hin).mp hhandled
    have hdashed : decide (prev ≥ 1 ∧ prev < (prog :: args).length ∧ optind = prev + 1 ∧
        (prog :: args)[prev]? = some [dash, dash]) = r₀.tail.dashed :=
      Bool.eq_iff_iff.mpr (decide_eq_true_iff.trans (dashdash_tail hends hdrop (Nat.le_refl 1)))
    have hcommand : (prog :: args).drop optind = r₀.tail.command := hends.command hdrop
    obtain ⟨r, cfg, hrun⟩ : ∃ r cfg, collectCommands r₀.asked r₀.tail.command = (r, cfg) := ⟨_, _, rfl⟩
    obtain ⟨hcode, hcollected⟩ := collectCommands_exact r₀.tail.command r₀.asked (Nat.zero_le _)
    have hlen : r₀.asked.command.length + r₀.tail.command.length = r₀.tail.command.length := Nat.zero_add _
    rw [hrun, hlen] at hcode
    rw [hrun] at hcollected
    -- every reading says the same
    have hsame : ∀ reading : Reading options, args = reading.render →
        reading.given = r₀.given ∧ reading.tail = r₀.tail := by
      intro reading hargs
      obtain ⟨e', hall', hends'⟩ := hcomplete reading hargs
      obtain ⟨hgiven, he⟩ := Prod.mk.inj (Option.some.inj (hall.symm.trans hall'))
      cases he
      have hbehind : (prog :: args).drop prev = reading.tail.render := hends'.behind hargs
      exact ⟨hgiven.symm, Tail.unique (hbehind.symm.trans (hends.behind hdrop))⟩
    refine ⟨r, cfg, ?_, ⟨fun h => ⟨r₀, hdrop, hroom, hcode.mp h⟩, fun ⟨reading, hargs, hallowed⟩ => ?_⟩,
      fun h reading hargs => ?_⟩
    · unfold cageParseArgs
      rw [hloop, hfilled]
      dsimp only [Option.bind_eq_bind, Option.bind_some]
      rw [if_neg (not_not_intro rfl), hdashed, hcommand]
      exact congrArg some hrun
    · have hle := hallowed.command
      rw [(hsame reading hargs).2] at hle
      exact hcode.mpr hle
    · have hconfig : reading.config = r₀.config := by
        unfold Reading.config Reading.asked
        rw [(hsame reading hargs).1, (hsame reading hargs).2]
      rw [hconfig]
      exact hcollected h
  · refine ⟨r, cfg, ?_, ⟨fun h => absurd h hr, fun ⟨reading, hargs, hallowed⟩ => ?_⟩, fun h => absurd h hr⟩
    · unfold cageParseArgs
      rw [hloop]
      exact if_pos hr
    · obtain ⟨e', hall', hends⟩ := hcomplete reading hargs
      cases hall.symm.trans hall'
      have hexact := (handleAll_exact reading.given cageConfigInit reading.fits hin).mpr ⟨hallowed.room, rfl⟩
      exact absurd ⟨congrArg Prod.fst hexact, Option.some_ne_none e'⟩ hno

/-- Two dashes that are the argument of an option do not end the options. -/
example : (cageParseArgs cageConfigInit [lit "cage", lit "-Na", lit "--"]).map
    (fun r => (r.1, r.2.appdir, r.2.unshareNet, r.2.hasDashdash)) =
      some (0, some [dash, dash], true, false) := by decide +kernel

end Cage.Cli
