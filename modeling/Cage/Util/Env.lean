import Cage.Util.EnvMap

/-!
`parse_envs` of `src/util/env.c`: the defaults, then the `-e` arguments in their
order, all put into the environment map.
-/

namespace Cage.Util

/-- `getenv` of the calling process. -/
structure Host where
  term : Option CStr
  lang : Option CStr
  deriving DecidableEq, Repr

/-- `env_t`, without the fields that the GUI set-up fills. -/
structure Env where
  path : Option CStr
  term : Option CStr
  lang : Option CStr
  home : Option CStr
  shell : Option CStr
  user : Option CStr
  guestShellOverride : Bool
  map : EnvMap
  deriving DecidableEq, Repr

def defPathValue : CStr := lit "/bin:/sbin:/usr/bin:/usr/sbin:/usr/local/bin:/usr/local/sbin"

def defPath : CStr := lit "PATH=" ++ defPathValue

def defTerm : CStr := lit "TERM=linux"

def defLang : CStr := lit "LANG=C"

/-- `char key[128]` in `sync_field`. -/
def keyMax : Nat := 128

/-- The bytes of `kv` before the rest of it that `strchr` has found. -/
def beforeRest (kv rest : CStr) : CStr := kv.take (kv.length - rest.length)

def syncField (alloc : Bool) (m : EnvMap) (kv : Option CStr) : Option EnvMap :=
  match kv with
  | none => some m
  | some kv =>
      match strchr kv equals with
      | none => some m
      | some rest =>
          if kv.length - rest.length ≥ keyMax then some m
          else envMapPut alloc m (beforeRest kv rest) rest.tail

/-- `t - 5` is the entry `TERM=...` of the environment that `getenv` looked in. -/
def setDefaultEnv (host : Host) (m : EnvMap) : Env where
  path := some defPath
  term := some (match host.term with
    | some t => lit "TERM=" ++ t
    | none => defTerm)
  lang := some (match host.lang with
    | some l => lit "LANG=" ++ l
    | none => defLang)
  home := none
  shell := none
  user := none
  guestShellOverride := false
  map := m

/-- The comparison of `try_any` with one name. -/
def isField (key e : CStr) : Bool := e.take key.length == key && e[key.length]? == some equals

def tryAny (e : CStr) (env : Env) : Env :=
  if isField (lit "PATH") e then { env with path := some e }
  else if isField (lit "TERM") e then { env with term := some e }
  else if isField (lit "LANG") e then { env with lang := some e }
  else if isField (lit "HOME") e then { env with home := some e }
  else if isField (lit "SHELL") e then { env with shell := some e }
  else if isField (lit "USER") e then { env with user := some e }
  else env

/-- `parse_one_env`; the inner `none` is its error. -/
def parseOneEnv (alloc : Bool) (e : CStr) (env : Env) : Option (Option Env) :=
  match strchr e equals with
  | none => some none
  | some rest =>
      (envMapPut alloc (tryAny e env).map (beforeRest e rest) rest.tail).map fun m =>
        some { tryAny e env with map := m }

/-- The loop of `parse_envs`. -/
def parseEach (alloc : Bool) (env : Env) : List CStr → Option (Option Env)
  | [] => some (some env)
  | e :: envs =>
      match parseOneEnv alloc e env with
      | none => none
      | some none => some none
      | some (some env) => parseEach alloc env envs

def shellNotGiven (env : Env) : Bool :=
  match env.shell with
  | none => true
  | some s => s[(lit "SHELL=").length]? == none

/-- `parse_envs`: `none` where a probe does not end, `some none` for its error. -/
def parseEnvs (alloc : Bool) (host : Host) (envs : List CStr) : Option (Option Env) :=
  (envMapInit alloc).bind fun m =>
    let env := setDefaultEnv host m
    (syncField alloc env.map env.path).bind fun m =>
      (syncField alloc m env.term).bind fun m =>
        (syncField alloc m env.lang).bind fun m =>
          (parseEach alloc { env with map := m } envs).map fun r =>
            r.map fun env => { env with guestShellOverride := shellNotGiven env }

end Cage.Util
