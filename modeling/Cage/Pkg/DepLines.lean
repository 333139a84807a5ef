import Cage.Pkg.Caches
import Cage.Pkg.DepIndex

/-!
`resolve_module` inverts the rendering of an index: any list of lines, in any
order, also with several of one name. The memory it hands out is counted block by
block, `src/pkg/resolve.c` with `mem_alloc`, `mem_realloc` and `mem_free`.
-/

namespace Cage.Pkg

open Lib.Lines Lib.Program Util

/-- A line of the index: a module, and what it depends on. -/
abbrev DepEntry := ModFile × List ModFile

/-- The lines one after the other; the last one may lack its newline. -/
def depText (final : Bool) : List DepEntry → Bytes
  | [] => []
  | [e] => depLine e.1 e.2 ++ if final then [10] else []
  | e :: es => depLine e.1 e.2 ++ 10 :: depText final es

theorem lines_depText (final : Bool) (es : List DepEntry) :
    lines 10 (depText final es) = es.map fun e => depLine e.1 e.2 := by
  induction es with
  | nil => rfl
  | cons e es ih =>
    have hno := newline_depLine e.1 e.2
    cases es with
    | nil =>
      cases final with
      | true => exact lines_append_line hno []
      | false =>
        have hne : depLine e.1 e.2 ≠ [] := List.append_ne_nil_of_left_ne_nil (path_ne_nil e.1) _
        show lines 10 (depLine e.1 e.2 ++ []) = [depLine e.1 e.2]
        rw [List.append_nil, lines_last hne hno]
    | cons f es =>
      show lines 10 (depLine e.1 e.2 ++ 10 :: depText final (f :: es)) = _
      rw [lines_append_line hno, ih]
      rfl

/-- A block of memory that holds a string. -/
structure Block where
  id : Nat
  bytes : CStr
  deriving DecidableEq, Repr

structure Blocks where
  next : Nat
  live : List Nat
  deriving DecidableEq, Repr

def Blocks.alloc (b : Blocks) (bytes : CStr) : Block × Blocks :=
  ({ id := b.next, bytes := bytes }, { next := b.next + 1, live := b.next :: b.live })

def Blocks.free (b : Blocks) (id : Nat) : Blocks := { b with live := b.live.erase id }

/-- The array of names, `deps`, and the names in it. -/
structure DepNames where
  array : Option Nat
  names : List Block
  deriving DecidableEq, Repr

/-- `mem_realloc` of the array, which is allocated with its first name. -/
def growArray (array : Option Nat) (b : Blocks) : Nat × Blocks :=
  match array with
  | some id => (id, b)
  | none => ((b.alloc []).1.id, (b.alloc []).2)

def addDepName (name : CStr) (d : DepNames) (b : Blocks) : DepNames × Blocks :=
  let dep := b.alloc name
  let array := growArray d.array dep.2
  ({ array := some array.1, names := d.names ++ [dep.1] }, array.2)

/-- The loop of `extract_deps` over the words that are left. -/
def addDeps : List Bytes → DepNames → Blocks → DepNames × Blocks
  | [], d, b => (d, b)
  | w :: ws, d, b =>
      match tryAddDep w with
      | none => addDeps ws d b
      | some name => addDeps ws (addDepName name d b).1 (addDepName name d b).2

/-- What `resolve_module` returns, and leaves in its out-parameters. -/
structure Resolved where
  ret : Int
  path : Option Block
  deps : DepNames
  deriving DecidableEq, Repr

def Resolved.failed : Resolved := { ret := -1, path := none, deps := { array := none, names := [] } }

/-- The blocks that the caller has to free. -/
def Resolved.blocks (r : Resolved) : List Nat :=
  (r.path.map Block.id).toList ++ (r.deps.array.toList ++ r.deps.names.map Block.id)

/-- `resolve_module` behind `read_deps`. -/
def resolveBlocks (release data name : Bytes) (b : Blocks) : Resolved × Blocks :=
  match findInBuf data name with
  | none => (.failed, b)
  | some (path, deps) =>
      let full := b.alloc (buildModulesPath modulesBase release path)
      let d := addDeps (wordsFrom [] deps) { array := none, names := [] } full.2
      ({ ret := 0, path := some full.1, deps := d.1 }, d.2)

/-- `resolve_module`. The path of the index is a block of its own for the time of
`read_deps`. -/
def resolveModuleMem (name : CStr) (b : Blocks) : ModM (Resolved × Blocks) := do
  let deps ← readDeps
  match deps with
  | none => pure (.failed, b)
  | some (release, data) =>
      let path := b.alloc (depPath release)
      pure (resolveBlocks release data name (path.2.free path.1.id))

def resolveAll : List CStr → Blocks → ModM (List Resolved × Blocks)
  | [], b => pure ([], b)
  | name :: names, b => do
      let r ← resolveModuleMem name b
      let rs ← resolveAll names r.2
      pure (r.1 :: rs.1, rs.2)

/-- A resolved name with its dependencies, and the memory between the calls. -/
structure WithDeps where
  before : Blocks
  answer : Resolved
  between : Blocks
  deps : List Resolved
  after : Blocks

/-- After any calls, a name and then the names that it returned. -/
def resolveWithDeps (earlier : List CStr) (name : CStr) (b : Blocks) : ModM WithDeps := do
  let rs ← resolveAll earlier b
  let r ← resolveModuleMem name rs.2
  let ds ← resolveAll (r.1.deps.names.map Block.bytes) r.2
  pure { before := rs.2, answer := r.1, between := r.2, deps := ds.1, after := ds.2 }

theorem free_alloc (b : Blocks) (bytes : CStr) :
    ((b.alloc bytes).2.free (b.alloc bytes).1.id).live = b.live := by
  simp [Blocks.alloc, Blocks.free]

def DepNames.blocks (d : DepNames) : List Nat := d.array.toList ++ d.names.map Block.id

theorem addDepName_blocks (name : CStr) {d : DepNames} {b : Blocks} {kept : List Nat}
    (h : b.live.Perm (d.blocks ++ kept)) :
    (addDepName name d b).2.live.Perm ((addDepName name d b).1.blocks ++ kept) := by
  rw [List.perm_iff_count] at h ⊢
  intro id
  have hid := h id
  unfold addDepName growArray
  cases harray : d.array with
  | none =>
    simp only [DepNames.blocks, harray, Option.toList_none, List.nil_append, Blocks.alloc,
      Option.toList_some, List.map_append, List.map_cons, List.map_nil, List.count_append,
      List.count_cons, List.count_nil] at hid ⊢
    omega
  | some a =>
    simp only [DepNames.blocks, harray, Blocks.alloc, Option.toList_some, List.map_append,
      List.map_cons, List.map_nil, List.count_append, List.count_cons, List.count_nil] at hid ⊢
    omega

/-- The loop adds the names of the words, and every block it allocates is in the
array or is the array. -/
theorem addDeps_spec (ws : List Bytes) {d : DepNames} {b : Blocks} {kept : List Nat}
    (h : b.live.Perm (d.blocks ++ kept)) :
    (addDeps ws d b).1.names.map Block.bytes = d.names.map Block.bytes ++ ws.filterMap tryAddDep ∧
      (addDeps ws d b).2.live.Perm ((addDeps ws d b).1.blocks ++ kept) := by
  induction ws generalizing d b with
  | nil => exact ⟨(List.append_nil _).symm, h⟩
  | cons w ws ih =>
    rw [addDeps, List.filterMap_cons]
    cases hw : tryAddDep w with
    | none => exact ih h
    | some name =>
      obtain ⟨hnames, hblocks⟩ := ih (addDepName_blocks name h)
      refine ⟨?_, hblocks⟩
      rw [hnames]
      simp [addDepName, Blocks.alloc]

/-- The answer for a name, and what it leaves allocated. -/
def Answers (release : CStr) (es : List DepEntry) (name : CStr) (b : Blocks) (r : Resolved)
    (b' : Blocks) : Prop :=
  match es.find? fun e => decide (e.1.Named name) with
  | none => r.ret = -1 ∧ r.path = none ∧ r.blocks = [] ∧ b'.live = b.live
  | some e => r.ret = 0 ∧
      r.path.map Block.bytes = some (buildModulesPath modulesBase release e.1.path) ∧
      r.deps.names.map Block.bytes = e.2.map ModFile.base ∧ b'.live.Perm (r.blocks ++ b.live)

/-- The answer without the memory it is in. -/
def Resolved.value (r : Resolved) : Option (CStr × List CStr) :=
  r.path.map fun p => (p.bytes, r.deps.names.map Block.bytes)

theorem resolveBlocks_none {release data name : Bytes}
    (h : resolveIn release data name = none) (b : Blocks) :
    resolveBlocks release data name b = (.failed, b) := by
  unfold resolveIn at h
  unfold resolveBlocks
  cases hbuf : findInBuf data name with
  | none => rfl
  | some r =>
    rw [hbuf] at h
    cases h

/-- A name that is found is answered with what the index says, and what the answer
allocates is in it. -/
theorem resolveBlocks_some {release data name : Bytes} {a : CStr × List CStr}
    (h : resolveIn release data name = some a) (b : Blocks) :
    (resolveBlocks release data name b).1.ret = 0 ∧
      (resolveBlocks release data name b).1.value = some a ∧
      (resolveBlocks release data name b).2.live.Perm
        ((resolveBlocks release data name b).1.blocks ++ b.live) := by
  unfold resolveIn at h
  unfold resolveBlocks
  cases hbuf : findInBuf data name with
  | none =>
    rw [hbuf] at h
    cases h
  | some r =>
    rw [hbuf] at h
    obtain rfl := Option.some.inj h
    have hstart : (b.alloc (buildModulesPath modulesBase release r.1)).2.live.Perm
        (DepNames.blocks { array := none, names := [] } ++ b.next :: b.live) := List.Perm.refl _
    obtain ⟨hnames, hblocks⟩ := addDeps_spec (wordsFrom [] r.2) hstart
    refine ⟨rfl, ?_, hblocks.trans List.perm_middle⟩
    exact congrArg (fun names => some (buildModulesPath modulesBase release r.1, names)) hnames

theorem resolveBlocks_value (release data name : Bytes) (b : Blocks) :
    (resolveBlocks release data name b).1.value = resolveIn release data name := by
  cases h : resolveIn release data name with
  | none =>
    rw [resolveBlocks_none h]
    rfl
  | some a => exact (resolveBlocks_some h b).2.1

/-- Counting the memory changes nothing: the same calls are made, and the answer is the
same. -/
theorem resolveModuleMem_value (name : CStr) (b : Blocks) :
    (fun r => r.1.value) <$> resolveModuleMem name b = resolveModule name := by
  unfold resolveModuleMem resolveModule
  rw [map_bind]
  refine congrArg (readDeps >>= ·) (funext fun deps => ?_)
  cases deps with
  | none => exact map_pure _ _
  | some d => exact (map_pure _ _).trans (congrArg pure (resolveBlocks_value d.1 d.2 name _))

theorem resolveBlocks_answers (release : CStr) (es : List DepEntry) (final : Bool) (name : CStr)
    {b b' : Blocks} (hb : b'.live = b.live) :
    Answers release es name b (resolveBlocks release (depText final es) name b').1
      (resolveBlocks release (depText final es) name b').2 := by
  have hresolve := resolveIn_lines (lines_depText final es) release name
  unfold Answers
  cases hfind : es.find? fun e => decide (e.1.Named name) with
  | none =>
    rw [hfind] at hresolve
    rw [resolveBlocks_none hresolve]
    exact ⟨rfl, rfl, rfl, hb⟩
  | some e =>
    rw [hfind] at hresolve
    obtain ⟨hret, hvalue, hblocks⟩ := resolveBlocks_some hresolve b'
    obtain ⟨p, hp, hboth⟩ := Option.map_eq_some_iff.mp hvalue
    obtain ⟨hpath, hdeps⟩ := Prod.mk.inj hboth
    refine ⟨hret, ?_, hdeps, hb ▸ hblocks⟩
    rw [hp, Option.map_some, hpath]

/-- A release as `uname` gives it. -/
structure Release where
  str : CStr
  short : str.length ≤ 64

/-- The kernel has this release, and each time its index is read it has this
text, in whatever pieces. -/
def Serves (release : CStr) (text : Bytes) : (k : ModCall) → Unit → k.Ret → Unit → Prop
  | .uname, _, r, _ => r = some release
  | .read path, _, o, _ => path = depPath release → o.complete = some text
  | .load _, _, _, _ => True

/-- The cache of the index is empty, or has the text. -/
def Cached (release : CStr) (text : Bytes) (c : Caches) (_ : Unit) : Prop :=
  ∀ d, c.deps = some d → c.depsPath = depPath release → d = text

section Runs

variable {release : Release} {text : Bytes}

theorem length_depPath (release : Release) : (depPath release.str).length < depsPathMax := by
  have hshort := release.short
  have hbase : modulesBase.length = 12 := by decide +kernel
  have hslash : (lit "/").length = 1 := by decide +kernel
  have hfile : (lit "modules.dep").length = 11 := by decide +kernel
  unfold depPath buildModulesPath depsPathMax
  simp only [List.length_append, hbase, hslash, hfile]
  omega

theorem ioRead_complete {o : Opening} (h : o.complete = some text) :
    ioRead none o = (0, some text) := by
  cases o with
  | noOpen => cases h
  | reads results =>
    change (if (readLoop [] results).1 = 0 then some (readLoop [] results).2 else none) =
      some text at h
    by_cases hzero : (readLoop [] results).1 = 0
    · rw [if_pos hzero] at h
      obtain rfl := Option.some.inj h
      exact Prod.ext hzero rfl
    · rw [if_neg hzero] at h
      cases h

/-- The cache has been filled with the text of the index. -/
def HasIndex (release : CStr) (text : Bytes) (c : Caches) : Prop :=
  c.deps = some text ∧ c.depsPath = depPath release

theorem serves_loadDepsFile :
    Ends (Serves release.str text) (fun _ _ => True) (loadDepsFile (depPath release.str))
      fun r c _ => r = 0 ∧ HasIndex release.str text c := by
  have hlen := length_depPath release
  have hpath : (depPath release.str).take (depsPathMax - 1) = depPath release.str :=
    List.take_of_length_le (by unfold depsPathMax at hlen ⊢; omega)
  refine Ends.bind (Q := fun _ c _ => c.depsPath = depPath release.str)
    (Ends.modify _ fun _ _ _ => hpath) fun _ => ?_
  rw [if_neg (Nat.not_le.mpr hlen)]
  refine Ends.bind (Q := fun r c _ => r = (0, some text) ∧ HasIndex release.str text c) ?_
    fun r => Ends.pure fun c s h => ⟨congrArg Prod.fst h.1, h.2⟩
  refine Ends.bind (Q := fun o c _ => ioRead none o = (0, some text) ∧
    c.depsPath = depPath release.str) (Ends.perform fun c s o t hc hserves => ?_) fun o => ?_
  · exact ⟨ioRead_complete (hserves rfl), hc⟩
  · refine Ends.bind (Q := fun _ c _ => ioRead none o = (0, some text) ∧
      HasIndex release.str text c) (Ends.modify _ ?_) fun _ => Ends.pure fun c s h => h
    rintro c s ⟨hread, hc⟩
    exact ⟨hread, by rw [hread], hc⟩

theorem serves_freshDeps :
    Ends (Serves release.str text) (Cached release.str text) (freshDeps (depPath release.str))
      fun r c _ => r = 0 ∧ HasIndex release.str text c := by
  refine Ends.bind (Q := fun c' c s => c' = c ∧ Cached release.str text c s)
    (Ends.get fun c s h => ⟨rfl, h⟩) fun c' => ?_
  refine Ends.ite (fun hmatch => Ends.pure ?_) fun _ => fun c s _ => serves_loadDepsFile c s trivial
  rintro c s ⟨rfl, hcached⟩
  obtain ⟨hsome, hpath⟩ := Bool.and_eq_true_iff.mp hmatch
  obtain ⟨d, hd⟩ := Option.isSome_iff_exists.mp hsome
  have hsame := eq_of_beq hpath
  exact ⟨rfl, by rw [hd, hcached d hd hsame], hsame⟩

theorem serves_readDeps :
    Ends (Serves release.str text) (Cached release.str text) readDeps fun r c s =>
      r = some (release.str, text) ∧ Cached release.str text c s := by
  refine Ends.bind (Q := fun r c s => r = some release.str ∧ Cached release.str text c s)
    (Ends.perform fun c s r t hc hserves => ⟨hserves, hc⟩) fun uts => ?_
  cases uts with
  | none => exact fun c s h => nomatch h.1
  | some rel =>
    by_cases hrel : rel = release.str
    · subst hrel
      refine Ends.bind (Q := fun r c _ => r = 0 ∧ HasIndex release.str text c)
        (fun c s h => serves_freshDeps c s h.2) fun r => ?_
      refine Ends.bind (Q := fun c' c _ => c' = c ∧ r = 0 ∧ HasIndex release.str text c)
        (Ends.get fun c s h => ⟨rfl, h⟩) fun c' => Ends.pure ?_
      rintro c s ⟨rfl, rfl, hdeps, hpath⟩
      refine ⟨by rw [if_pos rfl, hdeps, Option.getD_some], fun d hd _ => ?_⟩
      rw [hdeps] at hd
      exact (Option.some.inj hd).symm
    · exact fun c s h => absurd (Option.some.inj h.1) hrel

variable {es : List DepEntry} {final : Bool}

theorem serves_resolveModuleMem (name : CStr) (b : Blocks) :
    Ends (Serves release.str (depText final es)) (Cached release.str (depText final es))
      (resolveModuleMem name b) fun r c s => Answers release.str es name b r.1 r.2 ∧
        Cached release.str (depText final es) c s := by
  refine Ends.bind serves_readDeps fun deps => ?_
  cases deps with
  | none => exact fun c s h => nomatch h.1
  | some d =>
    refine Ends.pure fun c s h => ?_
    cases h.1
    exact ⟨resolveBlocks_answers release.str es final name (free_alloc b _), h.2⟩

/-- The answers to a list of names, from one state of the memory to the next. -/
def AllAnswers (release : CStr) (es : List DepEntry) :
    List CStr → Blocks → List Resolved → Blocks → Prop
  | [], b, rs, b' => rs = [] ∧ b' = b
  | name :: names, b, rs, b' => ∃ r rest mid, rs = r :: rest ∧ Answers release es name b r mid ∧
      AllAnswers release es names mid rest b'

theorem serves_resolveAll (names : List CStr) (b : Blocks) :
    Ends (Serves release.str (depText final es)) (Cached release.str (depText final es))
      (resolveAll names b) fun r c s => AllAnswers release.str es names b r.1 r.2 ∧
        Cached release.str (depText final es) c s := by
  induction names generalizing b with
  | nil => exact Ends.pure fun c s h => ⟨⟨rfl, rfl⟩, h⟩
  | cons name names ih =>
    refine Ends.bind (serves_resolveModuleMem name b) fun r => ?_
    refine Ends.bind (Q := fun rs c s => Answers release.str es name b r.1 r.2 ∧
      AllAnswers release.str es names r.2 rs.1 rs.2 ∧ Cached release.str (depText final es) c s)
      (fun c s h => Wp.mono (fun _ _ hrest => ⟨h.1, hrest⟩) _ (ih r.2 c s h.2)) fun rs => ?_
    exact Ends.pure fun c s h => ⟨⟨r.1, rs.1, r.2, rfl, h.1, h.2.1⟩, h.2.2⟩

end Runs

/-- From the start of the process, after any calls, `resolve_module` answers with
the first line of the name, and so it does for the names that it has returned. -/
theorem resolveModule_inverts (release : Release) (es : List DepEntry) (final : Bool)
    (earlier : List CStr) (name : CStr) (b : Blocks) :
    ((resolveWithDeps earlier name b).run Caches.empty).Wp (Serves release.str (depText final es))
      (fun r _ => Answers release.str es name r.1.before r.1.answer r.1.between ∧
        AllAnswers release.str es (r.1.answer.deps.names.map Block.bytes) r.1.between r.1.deps
          r.1.after) () := by
  have hrun : Ends (Serves release.str (depText final es))
      (Cached release.str (depText final es)) (resolveWithDeps earlier name b) fun w _ _ =>
        Answers release.str es name w.before w.answer w.between ∧
          AllAnswers release.str es (w.answer.deps.names.map Block.bytes) w.between w.deps
            w.after := by
    refine Ends.bind (Q := fun _ => Cached release.str (depText final es))
      (fun c s h => Wp.mono (fun _ _ hr => hr.2) _ (serves_resolveAll earlier b c s h)) fun rs => ?_
    refine Ends.bind (serves_resolveModuleMem name rs.2) fun r => ?_
    refine Ends.bind (Q := fun ds _ _ => Answers release.str es name rs.2 r.1 r.2 ∧
      AllAnswers release.str es (r.1.deps.names.map Block.bytes) r.2 ds.1 ds.2)
      (fun c s h => Wp.mono (fun _ _ hr => ⟨h.1, hr.1⟩) _ (serves_resolveAll _ r.2 c s h.2)) fun ds => ?_
    exact Ends.pure fun _ _ h => h
  exact hrun Caches.empty () fun d hd => nomatch hd

end Cage.Pkg
