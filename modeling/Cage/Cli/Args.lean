import Mathlib.Algebra.GroupWithZero.Nat
import Cage.Cli.Getopt

/-!
The command line: `src/cli/args.c`. What is printed for the user is left out.
-/

namespace Cage.Cli

open Util

/-- `cage_config_t`, with the lists of arguments as long as their counts say. -/
structure CageConfig where
  appdir : Option CStr
  unshareCgroup : Bool
  currentdir : Option CStr
  envvars : List CStr
  graphical : Bool
  group : Option CStr
  showHelp : Bool
  initscript : Option CStr
  killMode : Bool
  lowerdir : Option CStr
  unshareNet : Bool
  name : Option CStr
  pidfile : Option CStr
  upperdir : Option CStr
  user : Option CStr
  showVersion : Bool
  volumes : List CStr
  workdir : Option CStr
  hasDashdash : Bool
  command : List CStr
  deriving DecidableEq, Repr

def cageMaxEnvvars : Nat := 256
def cageMaxVolumes : Nat := 256
def cageMaxCmdArgs : Nat := 256

/-- `long_opts` -/
def longOpts : List LongOpt :=
  [⟨lit "appdir", true, chr 'a'⟩, ⟨lit "cgroup", false, chr 'C'⟩, ⟨lit "cwd", true, chr 'c'⟩,
    ⟨lit "env", true, chr 'e'⟩, ⟨lit "gui", false, chr 'G'⟩, ⟨lit "group", true, chr 'g'⟩,
    ⟨lit "help", false, chr 'h'⟩, ⟨lit "init", true, chr 'i'⟩, ⟨lit "kill", false, chr 'k'⟩,
    ⟨lit "lower", true, chr 'l'⟩, ⟨lit "net", false, chr 'N'⟩, ⟨lit "name", true, chr 'n'⟩,
    ⟨lit "pidfile", true, chr 'p'⟩, ⟨lit "upper", true, chr 'U'⟩, ⟨lit "user", true, chr 'u'⟩,
    ⟨lit "version", false, chr 'V'⟩, ⟨lit "volume", true, chr 'v'⟩, ⟨lit "work", true, chr 'w'⟩]

/-- What the call of `getopt_long` is given, behind the `+`. -/
def options : Options := ⟨lit ":a:Cc:e:Gg:hi:kl:Nn:p:U:u:Vv:w:", longOpts⟩

/-- A handler gets `optarg`. -/
abbrev OptFn := CageConfig → Option CStr → Int × CageConfig

def handleA : OptFn := fun cfg optarg => (0, { cfg with appdir := optarg })

/-- `handle_C` -/
def handleCgroup : OptFn := fun cfg _ => (0, { cfg with unshareCgroup := true })

def handleC : OptFn := fun cfg optarg => (0, { cfg with currentdir := optarg })

def handleE : OptFn := fun cfg optarg =>
  if cfg.envvars.length ≥ cageMaxEnvvars then (-1, cfg)
  else (0, { cfg with envvars := cfg.envvars ++ optarg.toList })

/-- `handle_G` -/
def handleGui : OptFn := fun cfg _ => (0, { cfg with graphical := true })

def handleG : OptFn := fun cfg optarg => (0, { cfg with group := optarg })

def handleI : OptFn := fun cfg optarg => (0, { cfg with initscript := optarg })

def handleK : OptFn := fun cfg _ => (0, { cfg with killMode := true })

def handleL : OptFn := fun cfg optarg => (0, { cfg with lowerdir := optarg })

/-- `handle_N` -/
def handleNet : OptFn := fun cfg _ => (0, { cfg with unshareNet := true })

def handleN : OptFn := fun cfg optarg =>
  if optarg.getD [] = [] ∨ strchr (optarg.getD []) (chr '/') ≠ none then (-1, cfg)
  else (0, { cfg with name := optarg })

def handleP : OptFn := fun cfg optarg => (0, { cfg with pidfile := optarg })

/-- `handle_U` -/
def handleUpper : OptFn := fun cfg optarg => (0, { cfg with upperdir := optarg })

def handleU : OptFn := fun cfg optarg => (0, { cfg with user := optarg })

def handleV : OptFn := fun cfg optarg =>
  if cfg.volumes.length ≥ cageMaxVolumes then (-1, cfg)
  else (0, { cfg with volumes := cfg.volumes ++ optarg.toList })

def handleW : OptFn := fun cfg optarg => (0, { cfg with workdir := optarg })

def optHandlers : List (UInt8 × OptFn) :=
  [(chr 'a', handleA), (chr 'C', handleCgroup), (chr 'c', handleC), (chr 'e', handleE),
    (chr 'G', handleGui), (chr 'g', handleG), (chr 'i', handleI), (chr 'k', handleK),
    (chr 'l', handleL), (chr 'N', handleNet), (chr 'n', handleN), (chr 'p', handleP),
    (chr 'U', handleUpper), (chr 'u', handleU), (chr 'v', handleV), (chr 'w', handleW)]

def handleNormal (cfg : CageConfig) (c : UInt8) (optarg : Option CStr) : Int × CageConfig :=
  match optHandlers.lookup c with
  | none => (0, cfg)
  | some fn => fn cfg optarg

/-- `handle_opt` of an option; what is not one ends the program. -/
def handleOpt (cfg : CageConfig) : Found → Int × CageConfig
  | .opt c optarg =>
      if c = chr 'h' then (0, { cfg with showHelp := true })
      else if c = chr 'V' then (0, { cfg with showVersion := true })
      else handleNormal cfg c optarg
  | .missing => (-1, cfg)
  | .unknown => (-1, cfg)
  | .done => (0, cfg)

def cageConfigInit : CageConfig where
  appdir := none
  unshareCgroup := false
  currentdir := some (lit "/")
  envvars := []
  graphical := false
  group := none
  showHelp := false
  initscript := none
  killMode := false
  lowerdir := some (lit "/")
  unshareNet := false
  name := none
  pidfile := none
  upperdir := none
  user := some (lit "0")
  showVersion := false
  volumes := []
  workdir := none
  hasDashdash := false
  command := []

def collectCommands (cfg : CageConfig) : List CStr → Int × CageConfig
  | [] => (0, cfg)
  | arg :: args =>
      if cfg.command.length ≥ cageMaxCmdArgs then (-1, cfg)
      else collectCommands { cfg with command := cfg.command ++ [arg] } args

/-- The loop of `cage_parse_args`, at most that many times round: what `handle_opt` has
returned last, `prev`, and where the calls have come to. -/
def parseLoop (argv : List CStr) : Nat → Getopt → Nat → CageConfig → Option (Int × CageConfig × Nat × Nat)
  | 0, _, _, _ => none
  | rounds + 1, g, prev, cfg =>
      match getoptLong options argv g with
      | (.done, g) => some (0, cfg, prev, g.optind)
      | (found, g) =>
          let r := handleOpt cfg found
          if r.1 ≠ 0 then some (r.1, r.2, prev, g.optind) else parseLoop argv rounds g g.optind r.2

/-- The rounds that the loop may need. -/
def parseRounds (argv : List CStr) : Nat := (argv.map fun arg => arg.length + 1).sum + 1

def cageParseArgs (cfg : CageConfig) (argv : List CStr) : Option (Int × CageConfig) := do
  let (r, cfg, prev, optind) ← parseLoop argv (parseRounds argv) ⟨1, []⟩ 1 cfg
  if r ≠ 0 then some (r, cfg)
  else
    let dashdash := prev ≥ 1 ∧ prev < argv.length ∧ optind = prev + 1 ∧ argv[prev]? = some [dash, dash]
    some (collectCommands { cfg with hasDashdash := dashdash } (argv.drop optind))

end Cage.Cli
