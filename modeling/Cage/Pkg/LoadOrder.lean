import Cage.Lib.Dependencies
import Cage.Pkg.DepIndex

/-!
The order in which `modprobe_load` loads the modules of a line of the index, under a
kernel that refuses a module whose dependencies are not loaded. It goes through the
line from its front, where the modules stand that need those behind them.
-/

namespace Cage.Pkg

open Lib.Dependencies Lib.Program Util

/-- The host: its release, which fits in a `struct utsname`, the files of its modules,
and which of them can be opened and are accepted by the kernel. -/
structure ModHost where
  release : CStr
  short : release.length ≤ 64
  index : DepIndex
  proc : Bytes
  builtin : Bytes
  opens : ModFile → Bool
  accepts : ModFile → Bool

def ModHost.rules (h : ModHost) : Rules ModFile :=
  { needs := h.index.needs, opens := h.opens, accepts := h.accepts }

def ModHost.modPath (h : ModHost) (m : ModFile) : CStr :=
  buildModulesPath modulesBase h.release m.path

def resultCode (ok : Bool) : Int := if ok then 0 else -1

/-- The state is that of the kernel: what is loaded, and the calls of `finit_module`. -/
def ModHost.answer (h : ModHost) : (k : ModCall) → State ModFile → k.Ret × State ModFile
  | .uname, s => (some h.release, s)
  | .read path, s =>
      (if path = procModules then .reads [some h.proc]
        else if path = builtinPath h.release then .reads [some h.builtin]
        else if path = depPath h.release then .reads [some h.index.text]
        else .noOpen, s)
  | .load path, s =>
      match h.index.mods.find? fun m => decide (h.modPath m = path) with
      | none => (-1, s)
      | some m => (resultCode (load h.rules m s).1, (load h.rules m s).2)

/-- `modprobe_load`, with empty caches and these modules loaded. -/
def ModHost.run (h : ModHost) (name : CStr) (loaded : List ModFile) : Int × State ModFile :=
  let r := ((modprobeLoad name).run Caches.empty).exec (fun k s => h.answer k s)
    { loaded := loaded, tries := [] }
  (r.1.1, r.2)

/-- Every `finit_module` is for a module whose dependencies are loaded, and if every
load succeeds, so does the whole. -/
def InOrder (h : ModHost) (name : CStr) (loaded : List ModFile) : Prop :=
  Satisfied h.rules (h.run name loaded).2 ∧
    ((h.index.find name).isSome → (∀ m, h.opens m = true ∧ h.accepts m = true) →
      (h.run name loaded).1 = 0)

/-- The module is there or built in, or unknown, or every module of its line finds its own
dependencies loaded from the start, when its turn comes. -/
def LineReady (h : ModHost) (name : CStr) (loaded : List ModFile) : Prop :=
  scanModuleList h.proc name = 1 ∨ scanModuleList h.builtin name = 1 ∨
    ∀ m, h.index.find name = some m → ReadyInTurn h.rules loaded (h.index.listed m)

section Run

variable {A B : Type} (h : ModHost) (c : Caches) (s : State ModFile)

/-- What a program of the module code returns on the host, and leaves. -/
def ModHost.eval (m : ModM A) (c : Caches) (s : State ModFile) : (A × Caches) × State ModFile :=
  (m.run c).exec (fun k s => h.answer k s) s

theorem eval_pure (a : A) : h.eval (pure a : ModM A) c s = ((a, c), s) := rfl

theorem eval_bind (m : ModM A) (f : A → ModM B) : h.eval (m >>= f) c s =
    h.eval (f (h.eval m c s).1.1) (h.eval m c s).1.2 (h.eval m c s).2 :=
  exec_bind _ _ _ _

theorem eval_get : h.eval (get : ModM Caches) c s = ((c, c), s) := rfl

theorem eval_modify (f : Caches → Caches) : h.eval (modify f : ModM Unit) c s = (((), f c), s) := rfl

theorem eval_sys (k : ModCall) :
    h.eval (ModM.sys k) c s = (((h.answer k s).1, c), (h.answer k s).2) := rfl

theorem ioRead_one (data : Bytes) : ioRead none (.reads [some data]) = (0, some data) := by
  simp only [ioRead, Option.getD_none, readLoop]
  split
  · rename_i hnil
    rw [hnil]
  · rfl

variable {h}

/-- A file of the host is read to its end. -/
theorem eval_readInto {path data : Bytes} (set : Option Bytes → Caches → Caches)
    (hread : h.answer (.read path) s = (.reads [some data], s)) :
    h.eval (readInto path set) c s = (((0, some data), set (some data) c), s) := by
  rw [readInto, eval_bind, eval_sys, hread, eval_bind, eval_modify, eval_pure, ioRead_one]

theorem answer_proc : h.answer (.read procModules) s = (.reads [some h.proc], s) := by
  simp only [ModHost.answer, if_true]

theorem answer_builtin : h.answer (.read (builtinPath h.release)) s = (.reads [some h.builtin], s) := by
  simp only [ModHost.answer, if_neg builtinPath_ne_procModules, if_true]

theorem answer_deps : h.answer (.read (depPath h.release)) s = (.reads [some h.index.text], s) := by
  simp only [ModHost.answer, if_neg depPath_ne_procModules, if_neg depPath_ne_builtinPath, if_true]

theorem eval_isLoaded (name : CStr) (hc : c.proc = none) : h.eval (isLoaded name) c s =
    ((scanModuleList h.proc name, { c with proc := some h.proc }), s) := by
  rw [isLoaded, eval_bind, eval_get]
  dsimp only
  rw [hc]
  dsimp only
  rw [eval_bind, eval_readInto c s _ (answer_proc s)]
  rfl

theorem eval_isBuiltin (name : CStr) (hc : c.builtin = none) : h.eval (isBuiltin name) c s =
    ((scanModuleList h.builtin name, { c with builtin := some h.builtin }), s) := by
  rw [isBuiltin, eval_bind, eval_get]
  dsimp only
  rw [hc]
  dsimp only
  rw [eval_bind, eval_sys]
  have huname : h.answer .uname s = (some h.release, s) := rfl
  rw [huname]
  dsimp only
  rw [eval_bind, eval_readInto c s _ (answer_builtin s)]
  rfl

/-- What `check_module_status` returns on the host. -/
def ModHost.status (h : ModHost) (name : CStr) : Int :=
  if scanModuleList h.proc name = 1 then 1
  else if scanModuleList h.builtin name = 1 then 1
  else 0

theorem eval_checkModuleStatus (name : CStr) : ∃ c, c.deps = none ∧
    h.eval (checkModuleStatus name) Caches.empty s = ((h.status name, c), s) := by
  rw [checkModuleStatus, eval_bind, eval_isLoaded _ s name rfl]
  dsimp only
  rcases scanModuleList_cases h.proc name with hproc | hproc
  · rw [hproc, if_neg (by omega), if_neg (by omega), eval_bind, eval_isBuiltin _ s name rfl]
    refine ⟨{ Caches.empty with proc := some h.proc, builtin := some h.builtin }, rfl, ?_⟩
    dsimp only
    rcases scanModuleList_cases h.builtin name with hbuiltin | hbuiltin
    · rw [ModHost.status, hproc, hbuiltin]
      rfl
    · rw [ModHost.status, hproc, hbuiltin]
      rfl
  · refine ⟨{ Caches.empty with proc := some h.proc }, rfl, ?_⟩
    rw [ModHost.status, hproc]
    rfl

/-- The caches, with the index in them. -/
def ModHost.known (h : ModHost) (c : Caches) : Caches :=
  { c with deps := some h.index.text, depsPath := depPath h.release }

theorem depPath_short : (depPath h.release).length < depsPathMax := by
  have hshort := h.short
  have hbase : modulesBase.length = 12 := rfl
  have hslash : (lit "/").length = 1 := rfl
  have hfile : (lit "modules.dep").length = 11 := rfl
  simp only [depPath, buildModulesPath, List.length_append, hbase, hslash, hfile, depsPathMax]
  omega

theorem eval_freshDeps (hc : c.deps = none ∨ c = h.known c) :
    h.eval (freshDeps (depPath h.release)) c s = ((0, h.known c), s) := by
  rw [freshDeps, eval_bind, eval_get]
  dsimp only
  rcases hc with hc | hc
  · have hshort := depPath_short (h := h)
    have hmatch : ¬ cacheMatches c (depPath h.release) = true := by
      rw [cacheMatches, hc]
      exact Bool.false_ne_true
    have htake : (depPath h.release).take (depsPathMax - 1) = depPath h.release :=
      List.take_of_length_le (by unfold depsPathMax at hshort ⊢; omega)
    rw [if_neg hmatch, loadDepsFile, eval_bind, eval_modify]
    dsimp only
    rw [if_neg (by omega), eval_bind, eval_readInto _ s _ (answer_deps s), htake]
    rfl
  · have hmatch : cacheMatches c (depPath h.release) = true := by
      rw [hc]
      exact beq_self_eq_true _
    rw [if_pos hmatch, ← hc]
    rfl

theorem eval_resolveModule (name : CStr) (hc : c.deps = none ∨ c = h.known c) :
    h.eval (resolveModule name) c s =
      ((resolveIn h.release h.index.text name, h.known c), s) := by
  have huname : h.answer .uname s = (some h.release, s) := rfl
  have hdeps : h.eval readDeps c s = ((some (h.release, h.index.text), h.known c), s) := by
    rw [readDeps, eval_bind, eval_sys, huname]
    dsimp only
    rw [eval_bind, eval_freshDeps c s hc]
    rfl
  rw [resolveModule, eval_bind, hdeps]
  rfl

theorem answer_load {m : ModFile} (hm : m ∈ h.index.mods) : h.answer (.load (h.modPath m)) s =
    (resultCode (load h.rules m s).1, (load h.rules m s).2) := by
  have hfind : (h.index.mods.find? fun n => decide (h.modPath n = h.modPath m)) = some m := by
    have hsome : (h.index.mods.find? fun n => decide (h.modPath n = h.modPath m)).isSome := by
      rw [List.find?_isSome]
      exact ⟨m, hm, decide_eq_true rfl⟩
    obtain ⟨n, hn⟩ := Option.isSome_iff_exists.mp hsome
    have hpath := List.find?_some hn
    have hsame : n = m := path_unique h.index (List.mem_of_find?_eq_some hn) hm
      (List.append_cancel_left (of_decide_eq_true hpath))
    rw [hn, hsame]
  simp only [ModHost.answer, hfind]

theorem eval_loadDep {m : ModFile} (hm : m ∈ h.index.mods) (hc : c = h.known c) :
    h.eval (loadDep m.base) c s =
      ((resultCode (load h.rules m s).1, c), (load h.rules m s).2) := by
  have hresolve := eval_resolveModule c s m.base (Or.inr hc)
  rw [resolveIn_text, find_base h.index hm, ← hc] at hresolve
  rw [loadDep, eval_bind, hresolve]
  dsimp only [Option.map_some]
  have hload := answer_load s hm
  rw [ModHost.modPath] at hload
  rw [eval_sys, hload]

/-- The loop loads a list of modules as the kernel would, one after the other. -/
theorem eval_loadDeps {l : List ModFile} (hl : ∀ m ∈ l, m ∈ h.index.mods) (hc : c = h.known c) :
    h.eval (loadDeps (l.map ModFile.base)) c s =
      ((resultCode (loadAll h.rules l s).1, c), (loadAll h.rules l s).2) := by
  induction l generalizing s with
  | nil => rfl
  | cons m l ih =>
    rw [List.map_cons, loadDeps, eval_bind, eval_loadDep c s (hl m List.mem_cons_self) hc]
    dsimp only
    rw [loadAll]
    cases hok : (load h.rules m s).1 with
    | true =>
      rw [if_neg (by decide), if_pos rfl]
      exact ih _ fun n hn => hl n (List.mem_cons_of_mem m hn)
    | false =>
      rw [if_pos (by decide), if_neg Bool.false_ne_true]
      rfl

/-- The result of a run for a module that is neither there nor built in. -/
def ModHost.loadResult (h : ModHost) (m : ModFile) (s : State ModFile) : Bool × State ModFile :=
  let r := loadAll h.rules (h.index.listed m) s
  if r.1 then load h.rules m r.2 else r

theorem eval_modprobeLoad (name : CStr) : ∃ c, h.eval (modprobeLoad name) Caches.empty s =
    if h.status name = 1 then ((0, c), s)
    else
      match h.index.find name with
      | none => ((-1, c), s)
      | some m => ((resultCode (h.loadResult m s).1, c), (h.loadResult m s).2) := by
  obtain ⟨c, hdeps, hstatus⟩ := eval_checkModuleStatus (h := h) s name
  rw [modprobeLoad, eval_bind, hstatus]
  dsimp only
  have hpos : ¬ h.status name < 0 := by
    unfold ModHost.status
    split
    · decide
    · split <;> decide
  rw [if_neg hpos]
  by_cases hone : h.status name = 1
  · exact ⟨c, by rw [if_pos hone, if_pos hone]; rfl⟩
  · rw [if_neg hone, eval_bind, eval_resolveModule c s name (Or.inl hdeps), resolveIn_text]
    dsimp only
    cases hfind : h.index.find name with
    | none => exact ⟨h.known c, by rw [if_neg hone]; rfl⟩
    | some m =>
      have hm := (find_some h.index hfind).1
      dsimp only [Option.map_some]
      rw [eval_bind, eval_loadDeps _ s (h.index.present m hm) rfl]
      dsimp only
      cases hok : (loadAll h.rules (h.index.listed m) s).1 with
      | false =>
        refine ⟨h.known c, ?_⟩
        rw [if_pos (by decide), if_neg hone, ModHost.loadResult, hok, if_neg Bool.false_ne_true, hok]
        rfl
      | true =>
        have hload := answer_load (loadAll h.rules (h.index.listed m) s).2 hm
        rw [ModHost.modPath] at hload
        have hresult : h.loadResult m s =
            load h.rules m (loadAll h.rules (h.index.listed m) s).2 := by
          rw [ModHost.loadResult, hok, if_pos rfl]
        rw [if_neg (by decide), eval_bind, eval_sys, hload, hresult]
        simp only [if_neg hone]
        cases (load h.rules m (loadAll h.rules (h.index.listed m) s).2).1 with
        | false => exact ⟨h.known c, rfl⟩
        | true => exact ⟨{ h.known c with proc := none, builtin := none }, rfl⟩

end Run

section Order

variable {h : ModHost} {name : CStr} {loaded : List ModFile} {m : ModFile}

def start (loaded : List ModFile) : State ModFile := { loaded := loaded, tries := [] }

theorem satisfied_start : Satisfied h.rules (start loaded) := fun _ hp => nomatch hp

theorem since_start (loaded l : List ModFile) : Since h.rules loaded l (start loaded) where
  kept _ hx := hx
  added _ hx := Or.inl hx
  unneeded _ _ _ _ hx := hx

/-- What a module needs is on its line. -/
theorem listed_needs (hm : m ∈ h.index.mods) {x : ModFile} (hx : x ∈ h.index.needs m) :
    x ∈ h.index.listed m :=
  (h.index.all m hm x).mpr (Relation.TransGen.single hx)

/-- The modules of the line are tried in order exactly if each finds what it needs from
the start. The module itself comes last, with all of its line loaded. -/
theorem loadResult_satisfied (hm : m ∈ h.index.mods) :
    Satisfied h.rules (h.loadResult m (start loaded)).2 ↔
      ReadyInTurn h.rules loaded (h.index.listed m) := by
  have horder : (h.index.listed m).Pairwise fun x y => x ∉ h.rules.needs y :=
    (h.index.order m hm).imp fun hno hx => hno (Relation.TransGen.single hx)
  have hline := loadAll_satisfied horder (since_start (h := h) loaded _)
  rw [and_iff_left satisfied_start] at hline
  rw [← hline, ModHost.loadResult]
  by_cases hok : (loadAll h.rules (h.index.listed m) (start loaded)).1 = true
  · rw [if_pos hok, load_satisfied]
    exact and_iff_right fun _ x hx => loadAll_mem hok x (Or.inl (listed_needs hm hx))
  · rw [if_neg hok]

/-- Where every load may succeed, the module is loaded if its line is ready. -/
theorem loadResult_ok (hm : m ∈ h.index.mods)
    (hrules : ∀ m, h.opens m = true ∧ h.accepts m = true)
    (hready : ReadyInTurn h.rules loaded (h.index.listed m)) :
    (h.loadResult m (start loaded)).1 = true := by
  have hok : (loadAll h.rules (h.index.listed m) (start loaded)).1 = true :=
    loadAll_ok hrules (fun _ hx => hx) hready
  rw [ModHost.loadResult, if_pos hok]
  refine load_ok.mpr ⟨(hrules m).1, Or.inr ⟨fun x hx => ?_, (hrules m).2⟩⟩
  exact loadAll_mem hok x (Or.inl (listed_needs hm hx))

variable (h name loaded)

theorem status_one : h.status name = 1 ↔
    scanModuleList h.proc name = 1 ∨ scanModuleList h.builtin name = 1 := by
  unfold ModHost.status
  by_cases hproc : scanModuleList h.proc name = 1
  · simp [hproc]
  · by_cases hbuiltin : scanModuleList h.builtin name = 1
    · simp [hproc, hbuiltin]
    · simp [hproc, hbuiltin]

theorem run_cases : h.status name = 1 ∧ h.run name loaded = (0, start loaded) ∨
    h.status name ≠ 1 ∧ h.index.find name = none ∧ h.run name loaded = (-1, start loaded) ∨
    ∃ m, h.status name ≠ 1 ∧ h.index.find name = some m ∧ h.run name loaded =
      (resultCode (h.loadResult m (start loaded)).1, (h.loadResult m (start loaded)).2) := by
  obtain ⟨c, hrun⟩ := eval_modprobeLoad (h := h) (start loaded) name
  have hresult : h.run name loaded = ((h.eval (modprobeLoad name) Caches.empty (start loaded)).1.1,
      (h.eval (modprobeLoad name) Caches.empty (start loaded)).2) := rfl
  rw [hresult, hrun]
  by_cases hone : h.status name = 1
  · rw [if_pos hone]
    exact Or.inl ⟨hone, rfl⟩
  · rw [if_neg hone]
    cases hfind : h.index.find name with
    | none => exact Or.inr (Or.inl ⟨hone, rfl, rfl⟩)
    | some m => exact Or.inr (Or.inr ⟨m, hone, rfl, rfl⟩)

/-- When the loads of `modprobe_load` come in order. -/
theorem inOrder_iff : InOrder h name loaded ↔ LineReady h name loaded := by
  have hstatus := status_one h name
  unfold InOrder LineReady
  rw [← or_assoc, ← hstatus]
  rcases run_cases h name loaded with
    ⟨hone, hrun⟩ | ⟨-, hfind, hrun⟩ | ⟨m, hone, hfind, hrun⟩
  · rw [hrun]
    exact iff_of_true ⟨satisfied_start, fun _ _ => rfl⟩ (Or.inl hone)
  · rw [hrun, hfind]
    exact iff_of_true ⟨satisfied_start, fun hsome => absurd hsome Bool.false_ne_true⟩
      (Or.inr fun m hm => nomatch hm)
  · have hm := (find_some h.index hfind).1
    rw [hrun, hfind, loadResult_satisfied hm]
    constructor
    · rintro ⟨hready, -⟩
      refine Or.inr fun n hn => ?_
      cases hn
      exact hready
    · intro hline
      have hready := hline.resolve_left hone m rfl
      exact ⟨hready, fun _ hrules => by rw [loadResult_ok hm hrules hready]; rfl⟩

end Order

section Chain

/-- A module at the top of its release. -/
def topModule (base : Bytes) (hbase : ∀ c ∈ base, plain c = true ∧ c ≠ 47) (hsome : base ≠ []) :
    ModFile where
  dir := []
  base := base
  suffix := []
  dirPlain := fun _ hc => nomatch hc
  dirEnds := Or.inl rfl
  basePlain := hbase
  baseSome := hsome
  suffixOk := rfl

def modA : ModFile := topModule (lit "a") (plain_all (by decide)) (by decide)

def modB : ModFile := topModule (lit "b") (plain_all (by decide)) (by decide)

def modC : ModFile := topModule (lit "c") (plain_all (by decide)) (by decide)

/-- `a` needs `b`, and `b` needs `c`. -/
def chainNeeds (m : ModFile) : List ModFile :=
  if m = modA then [modB] else if m = modB then [modC] else []

def ChainDeps : ModFile → ModFile → Prop := Relation.TransGen fun a b => b ∈ chainNeeds a

theorem chainDeps_none {m x : ModFile} (hm : chainNeeds m = []) : ¬ ChainDeps m x := by
  intro h
  obtain ⟨y, hy, -⟩ := Relation.TransGen.head'_iff.mp h
  rw [hm] at hy
  cases hy

theorem chainDeps_one {m n x : ModFile} (hm : chainNeeds m = [n]) :
    ChainDeps m x ↔ x = n ∨ ChainDeps n x := by
  rw [ChainDeps, Relation.TransGen.head'_iff]
  simp only [hm, List.mem_singleton, exists_eq_left]
  rw [Relation.reflTransGen_iff_eq_or_transGen]

theorem chainDeps_b {x : ModFile} : ChainDeps modB x ↔ x = modC := by
  rw [chainDeps_one (n := modC) (by decide), or_iff_left (chainDeps_none (by decide))]

theorem chainDeps_a {x : ModFile} : ChainDeps modA x ↔ x = modB ∨ x = modC := by
  rw [chainDeps_one (n := modB) (by decide), chainDeps_b]

/-- The index of the three, as `depmod` writes it: `a.ko: b.ko c.ko`, `b.ko: c.ko` and
`c.ko:`. -/
def chain : DepIndex where
  mods := [modA, modB, modC]
  needs := chainNeeds
  listed m := if m = modA then [modB, modC] else if m = modB then [modC] else []
  names := by decide
  acyclic m h := by
    by_cases ha : m = modA
    · rw [ha] at h
      exact absurd (chainDeps_a.mp h) (by decide)
    · by_cases hb : m = modB
      · rw [hb] at h
        exact absurd (chainDeps_b.mp h) (by decide)
      · exact chainDeps_none (by rw [chainNeeds, if_neg ha, if_neg hb]) h
  all := by
    intro m hm x
    rcases List.mem_cons.mp hm with rfl | hm
    · rw [if_pos rfl, List.mem_cons, List.mem_singleton]
      exact chainDeps_a.symm
    · rcases List.mem_cons.mp hm with rfl | hm
      · rw [if_neg (by decide), if_pos rfl, List.mem_singleton]
        exact chainDeps_b.symm
      · obtain rfl := List.mem_singleton.mp hm
        rw [if_neg (by decide), if_neg (by decide)]
        exact iff_of_false List.not_mem_nil (chainDeps_none (by decide))
  present := by decide
  order := by
    intro m hm
    rcases List.mem_cons.mp hm with rfl | hm
    · rw [if_pos rfl]
      exact List.pairwise_pair.mpr (chainDeps_none (by decide))
    · rcases List.mem_cons.mp hm with rfl | hm
      · rw [if_neg (by decide), if_pos rfl]
        exact List.pairwise_singleton _ _
      · obtain rfl := List.mem_singleton.mp hm
        rw [if_neg (by decide), if_neg (by decide)]
        exact List.Pairwise.nil

/-- A host with these modules, none of them loaded. -/
def chainHost : ModHost where
  release := lit "6.1"
  short := by decide
  index := chain
  proc := []
  builtin := []
  opens _ := true
  accepts _ := true

/-- `b` is asked for before `c`. -/
theorem chain_not_inOrder : ¬ InOrder chainHost (lit "a") [] := by
  rintro ⟨hsatisfied, -⟩
  have hfound : chainHost.index.find (lit "a") = some modA := by decide
  rcases run_cases chainHost (lit "a") [] with
    ⟨hone, -⟩ | ⟨-, hnone, -⟩ | ⟨m, -, hfind, hrun⟩
  · exact absurd hone (by decide)
  · rw [hfound] at hnone
    cases hnone
  · rw [hfound] at hfind
    cases hfind
    rw [hrun, loadResult_satisfied (by decide)] at hsatisfied
    have hneeds := (hsatisfied rfl).1 modC (by decide)
    cases hneeds

end Chain

end Cage.Pkg
