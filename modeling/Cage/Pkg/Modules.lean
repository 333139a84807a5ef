import Cage.Lib.Lines
import Cage.Lib.Program
import Cage.Util.MemPath

/-!
Kernel modules by name: `src/pkg/modprobe.c`, `src/pkg/resolve.c`,
`src/pkg/mod_util.h`, the suffixes of `src/pkg/mod_format.c` and the reader of
`src/util/io_read.c` that fills their caches. Memory that cannot be had ends the
process.
-/

namespace Cage.Pkg

open Lib.Lines Lib.Program Util

abbrev Bytes := List UInt8

/-- The loop of `skip_to_name`; `s` is where the name starts so far. -/
def skipToNameFrom (s : Bytes) : Bytes → Bytes
  | [] => s
  | c :: q => if c = 47 then skipToNameFrom q q else skipToNameFrom s q

def skipToName (s : Bytes) : Bytes := skipToNameFrom s s

def underscored (c : UInt8) : UInt8 := if c = 45 then 95 else c

/-- `module_name_eq` on the first `len` bytes of `s`. -/
def moduleNameEq (name s : Bytes) (len : Nat) : Bool :=
  len == name.length && name.map underscored == (s.take name.length).map underscored

def modFormatSuffixOk (s : Bytes) : Bool :=
  s == [] || s == lit ".gz" || s == lit ".xz" || s == lit ".zst"

def lineHasName (line name : Bytes) : Bool :=
  let word := line.takeWhile fun c => !isSpace c
  let base := skipToName word
  if base.length < name.length || !moduleNameEq name base name.length then false
  else
    let rest := base.drop name.length
    rest == [] || rest == lit ".ko"

def scanModuleList (data name : Bytes) : Int :=
  if (lines 10 data).any fun line => lineHasName line name then 1 else 0

/-- The path of the module, and the string of its dependencies. -/
def parseDepLine (line : Bytes) : Option (Bytes × Bytes) :=
  match line.dropWhile fun c => c != 58 with
  | [] => none
  | _ :: deps => some (line.takeWhile fun c => c != 58, deps)

def nameMatches (name s : Bytes) : Bool :=
  if s.length < name.length + 3 || (s.drop name.length).take 3 != lit ".ko" then false
  else if !moduleNameEq name s name.length then false
  else modFormatSuffixOk (s.drop (name.length + 3))

def findInDeps (line name : Bytes) : Bool :=
  match parseDepLine line with
  | none => false
  | some (path, _) => if path = [] then false else nameMatches name (skipToName path)

def findInBuf (data name : Bytes) : Option (Bytes × Bytes) :=
  match (lines 10 data).find? fun line => findInDeps line name with
  | none => none
  | some line => parseDepLine line

/-- The words of `extract_deps`; `w` is what has been read of the next one. -/
def wordsFrom (w : Bytes) : Bytes → List Bytes
  | [] => if w = [] then [] else [w]
  | c :: s =>
      if isSpace c then if w = [] then wordsFrom [] s else w :: wordsFrom [] s
      else wordsFrom (w ++ [c]) s

/-- The loop of `try_add_dep` from `ko_at` down: where the last `.ko` ends. -/
def koAt (s : Bytes) : Nat → Nat
  | 0 => 0
  | n + 1 => if n + 1 ≥ 3 ∧ (s.drop (n + 1 - 3)).take 3 ≠ lit ".ko" then koAt s n else n + 1

/-- The name that `try_add_dep` adds for a word. -/
def tryAddDep (word : Bytes) : Option Bytes :=
  if word.length ≤ 3 then none
  else
    let ko := koAt word word.length
    if ko < 3 then none
    else if !modFormatSuffixOk (word.drop ko) then none
    else some (skipToName (word.take (ko - 3)))

def extractDeps (deps : Bytes) : List Bytes := (wordsFrom [] deps).filterMap tryAddDep

def modulesBase : CStr := lit "/lib/modules"

def buildModulesPath (base release rest : Bytes) : CStr :=
  base ++ lit "/" ++ release ++ lit "/" ++ rest

/-- What `open` and the `read`s of a file give: each read some bytes, none at the
end of the file, or an error. -/
inductive Opening where
  | noOpen
  | reads (results : List (Option Bytes))
  deriving DecidableEq, Repr

/-- `read_loop` on the results of its reads, into a buffer with `data`. -/
def readLoop (data : Bytes) : List (Option Bytes) → Int × Bytes
  | [] => (0, data)
  | none :: _ => (-1, data)
  | some chunk :: rest => if chunk = [] then (0, data) else readLoop (data ++ chunk) rest

/-- `io_read` into a buffer. Room for the first read is made before it, so the
buffer has data as soon as the file is open. -/
def ioRead (b : Option Bytes) : Opening → Int × Option Bytes
  | .noOpen => (-1, b)
  | .reads results =>
      let r := readLoop (b.getD []) results
      (r.1, some r.2)

/-- The static buffers; `none` is a null `data`. -/
structure Caches where
  proc : Option Bytes
  builtin : Option Bytes
  deps : Option Bytes
  depsPath : CStr
  deriving DecidableEq, Repr

def Caches.empty : Caches := { proc := none, builtin := none, deps := none, depsPath := [] }

inductive ModCall where
  /-- `uname`, of which the release is used -/
  | uname
  | read (path : CStr)
  /-- `load_module_path` -/
  | load (path : CStr)
  deriving DecidableEq, Repr

abbrev ModCall.Ret : ModCall → Type
  | .uname => Option CStr
  | .read _ => Opening
  | .load _ => Int

abbrev ModM (A : Type) := StateT Caches (Prog ModCall ModCall.Ret) A

def ModM.sys (k : ModCall) : ModM k.Ret := StateT.lift (perform k)

def modprobeCacheInvalidate : ModM Unit := modify fun c => { c with proc := none, builtin := none }

def procModules : CStr := lit "/proc/modules"

def builtinPath (release : CStr) : CStr :=
  buildModulesPath modulesBase release (lit "modules.builtin")

def depPath (release : CStr) : CStr := buildModulesPath modulesBase release (lit "modules.dep")

/-- `io_read` into a static buffer, which is empty. -/
def readInto (path : CStr) (set : Option Bytes → Caches → Caches) : ModM (Int × Option Bytes) := do
  let o ← ModM.sys (.read path)
  modify (set (ioRead none o).2)
  pure (ioRead none o)

def isLoaded (name : CStr) : ModM Int := do
  let c ← get
  match c.proc with
  | some data => pure (scanModuleList data name)
  | none => do
      let r ← readInto procModules fun b c => { c with proc := b }
      if r.1 ≠ 0 then pure (-1) else pure (scanModuleList (r.2.getD []) name)

def isBuiltin (name : CStr) : ModM Int := do
  let c ← get
  match c.builtin with
  | some data => pure (scanModuleList data name)
  | none => do
      let uts ← ModM.sys .uname
      match uts with
      | none => pure (-1)
      | some release => do
          let r ← readInto (builtinPath release) fun b c => { c with builtin := b }
          if r.1 ≠ 0 then pure (-1) else pure (scanModuleList (r.2.getD []) name)

def checkModuleStatus (name : CStr) : ModM Int := do
  let loaded ← isLoaded name
  if loaded < 0 then pure (-1)
  else if loaded = 1 then pure 1
  else do
    let builtin ← isBuiltin name
    if builtin < 0 then pure (-1)
    else if builtin = 1 then pure 1
    else pure 0

/-- `sizeof(cached_deps_path)` -/
def depsPathMax : Nat := 4160

def loadDepsFile (path : CStr) : ModM Int := do
  modify fun c => { c with deps := none, depsPath := path.take (depsPathMax - 1) }
  if path.length ≥ depsPathMax then pure (-1)
  else do
    let r ← readInto path fun b c => { c with deps := b }
    pure r.1

def cacheMatches (c : Caches) (path : CStr) : Bool := c.deps.isSome && c.depsPath == path

def freshDeps (path : CStr) : ModM Int := do
  let c ← get
  if cacheMatches c path then pure 0 else loadDepsFile path

/-- The release, and the buffer. -/
def readDeps : ModM (Option (CStr × Bytes)) := do
  let uts ← ModM.sys .uname
  match uts with
  | none => pure none
  | some release => do
      let r ← freshDeps (depPath release)
      let c ← get
      pure (if r = 0 then some (release, c.deps.getD []) else none)

/-- The path of a module in the index, and the names of its dependencies. -/
def resolveIn (release data name : Bytes) : Option (CStr × List CStr) :=
  match findInBuf data name with
  | none => none
  | some (path, deps) => some (buildModulesPath modulesBase release path, extractDeps deps)

def resolveModule (name : CStr) : ModM (Option (CStr × List CStr)) := do
  let deps ← readDeps
  match deps with
  | none => pure none
  | some (release, data) => pure (resolveIn release data name)

def loadDep (name : CStr) : ModM Int := do
  let dep ← resolveModule name
  match dep with
  | none => pure (-1)
  | some (path, _) => ModM.sys (.load path)

def loadDeps : List CStr → ModM Int
  | [] => pure 0
  | dep :: rest => do
      let r ← loadDep dep
      if r ≠ 0 then pure (-1) else loadDeps rest

def modprobeLoad (name : CStr) : ModM Int := do
  let status ← checkModuleStatus name
  if status < 0 then pure (-1)
  else if status = 1 then pure 0
  else do
    let mod ← resolveModule name
    match mod with
    | none => pure (-1)
    | some (path, deps) => do
        let r ← loadDeps deps
        if r ≠ 0 then pure (-1)
        else do
          let r ← ModM.sys (.load path)
          if r = 0 then do
            modprobeCacheInvalidate
            pure r
          else pure r

section Paths

variable {release : CStr}

theorem buildModulesPath_ne_procModules (rest : Bytes) :
    buildModulesPath modulesBase release rest ≠ procModules := by
  intro h
  have hfront : (buildModulesPath modulesBase release rest).take 2 = lit "/l" := rfl
  rw [h] at hfront
  exact absurd hfront (by decide)

theorem builtinPath_ne_procModules : builtinPath release ≠ procModules :=
  buildModulesPath_ne_procModules _

theorem depPath_ne_procModules : depPath release ≠ procModules :=
  buildModulesPath_ne_procModules _

theorem depPath_ne_builtinPath : depPath release ≠ builtinPath release := by
  intro h
  have htail := List.append_cancel_left h
  exact absurd htail (by decide)

end Paths

theorem scanModuleList_cases (data name : Bytes) :
    scanModuleList data name = 0 ∨ scanModuleList data name = 1 := by
  unfold scanModuleList
  split
  · exact Or.inr rfl
  · exact Or.inl rfl

end Cage.Pkg
