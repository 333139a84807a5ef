import Cage.Pkg.Modules

/-!
What the caches of the module code hold after any sequence of its calls, with
opens and reads of its files failing at any point. The log keeps what every read
of a file gave and every load returned, the newest first.
-/

namespace Cage.Pkg

open Lib.Program Util

inductive Event where
  | read (path : CStr) (o : Opening)
  | load (path : CStr) (r : Int)
  deriving DecidableEq, Repr

abbrev Log := List Event

/-- What was read, if the file was read to its end. -/
def Opening.complete : Opening → Option Bytes
  | .noOpen => none
  | .reads results =>
      if (readLoop [] results).1 = 0 then some (readLoop [] results).2 else none

def latest (path : CStr) : Log → Option Opening
  | [] => none
  | .read p o :: s => if p = path then some o else latest path s
  | .load _ _ :: s => latest path s

/-- What the latest read of the file gave, if that was a complete one. -/
def contents (s : Log) (path : CStr) : Option Bytes := (latest path s).bind Opening.complete

def loads : Log → List (CStr × Int)
  | [] => []
  | .read _ _ :: s => loads s
  | .load path r :: s => (path, r) :: loads s

/-- Any answers, on a host whose kernel has one release. -/
def Answered (release : CStr) : (k : ModCall) → Log → k.Ret → Log → Prop
  | .uname, s, r, t => (r = none ∨ r = some release) ∧ t = s
  | .read path, s, o, t => t = .read path o :: s
  | .load path, s, r, t => t = .load path r :: s

/-- No read fails after the open. -/
def Whole : (k : ModCall) → k.Ret → Prop
  | .read _, .reads results => (readLoop [] results).1 = 0
  | _, _ => True

def AnsweredWhole (release : CStr) (k : ModCall) (s : Log) (r : k.Ret) (t : Log) : Prop :=
  Answered release k s r t ∧ Whole k r

/-- A filled cache holds what the latest read of its file gave, and that was complete.
So after a failed read the cache is empty, and the next call reads the file again. -/
structure CachesTrue (release : CStr) (c : Caches) (s : Log) : Prop where
  proc : ∀ d, c.proc = some d → contents s procModules = some d
  builtin : ∀ d, c.builtin = some d → contents s (builtinPath release) = some d
  deps : ∀ d, c.deps = some d →
    c.depsPath = depPath release ∧ contents s (depPath release) = some d

inductive Op where
  | status (name : CStr)
  | resolve (name : CStr)
  | load (name : CStr)

abbrev Op.Ans : Op → Type
  | .status _ | .load _ => Int
  | .resolve _ => Option (CStr × List CStr)

def Op.prog : (op : Op) → ModM op.Ans
  | .status name => checkModuleStatus name
  | .resolve name => resolveModule name
  | .load name => modprobeLoad name

/-- The answer of `check_module_status` to files with these contents. -/
def statusIn (proc builtin : Option Bytes) (name : CStr) (a : Int) : Prop :=
  ∃ d, proc = some d ∧ (scanModuleList d name = 1 ∧ a = 1 ∨
    scanModuleList d name = 0 ∧ ∃ b, builtin = some b ∧ a = scanModuleList b name)

/-- The loads of a module and its dependencies, as its line in `data` has them. -/
def loadsIn (release data name : Bytes) (l : List (CStr × Int)) : Prop :=
  ∃ path deps paths, resolveIn release data name = some (path, deps) ∧
    List.Forall₂ (fun dep p => ∃ ds, resolveIn release data dep = some (p, ds)) deps paths ∧
    l = (paths ++ [path]).map fun p => (p, 0)

/-- An answer that is no error is the one computed from what the latest reads of
the files gave, and these were complete. `s` is the log before the call, `t` after it. -/
def Op.Right (release : CStr) : (op : Op) → op.Ans → Log → Log → Prop
  | .status name, a, _, t =>
      a = -1 ∨ statusIn (contents t procModules) (contents t (builtinPath release)) name a
  | .resolve name, a, _, t =>
      a = none ∨ ∃ d, contents t (depPath release) = some d ∧ a = resolveIn release d name
  | .load name, a, s, t =>
      a ≠ 0 ∨ statusIn (contents t procModules) (contents t (builtinPath release)) name 1 ∨
        statusIn (contents t procModules) (contents t (builtinPath release)) name 0 ∧
          ∃ d l, contents t (depPath release) = some d ∧ loadsIn release d name l ∧
            loads t = l.reverse ++ loads s

/-- Every call of the sequence answers right, and leaves caches that are true. -/
def Session (release : CStr) (may : (k : ModCall) → Log → k.Ret → Log → Prop) :
    List Op → Caches → Log → Prop
  | [], _, _ => True
  | op :: ops, c, s =>
      (op.prog.run c).Wp may (fun r t => op.Right release r.1 s t ∧ CachesTrue release r.2 t ∧
        Session release may ops r.2 t) s

section Files

variable {release : CStr} {s : Log}

@[simp] theorem contents_read_self (path : CStr) (o : Opening) :
    contents (.read path o :: s) path = o.complete := by
  simp only [contents, latest, if_true, Option.bind_some]

theorem contents_read_of_ne {path p : CStr} (h : p ≠ path) (o : Opening) :
    contents (.read p o :: s) path = contents s path := by
  rw [contents, latest, if_neg h]
  rfl

@[simp] theorem contents_load (path p : CStr) (r : Int) :
    contents (.load p r :: s) path = contents s path := rfl

/-- A whole read leaves no data, or all of them. -/
theorem ioRead_whole {path : CStr} {o : Opening} (h : Whole (.read path) o) :
    (ioRead none o = (-1, none)) ∨ ∃ d, ioRead none o = (0, some d) ∧ o.complete = some d := by
  cases o with
  | noOpen => exact Or.inl rfl
  | reads results =>
    have h0 : (readLoop [] results).1 = 0 := h
    refine Or.inr ⟨(readLoop [] results).2, ?_, if_pos h0⟩
    simp only [ioRead, Option.getD_none, h0]

section Fill

variable {c : Caches} {o : Opening} {b : Option Bytes} (h : CachesTrue release c s)
  (hb : ∀ d, b = some d → o.complete = some d)
include h hb

theorem CachesTrue.fillProc :
    CachesTrue release { c with proc := b } (.read procModules o :: s) where
  proc d hd := by
    rw [contents_read_self]
    exact hb d hd
  builtin d hd := by
    rw [contents_read_of_ne builtinPath_ne_procModules.symm]
    exact h.builtin d hd
  deps d hd := by
    rw [contents_read_of_ne depPath_ne_procModules.symm]
    exact h.deps d hd

theorem CachesTrue.fillBuiltin :
    CachesTrue release { c with builtin := b } (.read (builtinPath release) o :: s) where
  proc d hd := by
    rw [contents_read_of_ne builtinPath_ne_procModules]
    exact h.proc d hd
  builtin d hd := by
    rw [contents_read_self]
    exact hb d hd
  deps d hd := by
    rw [contents_read_of_ne depPath_ne_builtinPath.symm]
    exact h.deps d hd

theorem CachesTrue.fillDeps (hpath : c.depsPath = depPath release) :
    CachesTrue release { c with deps := b } (.read (depPath release) o :: s) where
  proc d hd := by
    rw [contents_read_of_ne depPath_ne_procModules]
    exact h.proc d hd
  builtin d hd := by
    rw [contents_read_of_ne depPath_ne_builtinPath]
    exact h.builtin d hd
  deps d hd := by
    rw [contents_read_self]
    exact ⟨hpath, hb d hd⟩

end Fill

end Files

section Ends

variable {release : CStr}

theorem CachesTrue.load {c : Caches} {s : Log} (h : CachesTrue release c s) (path : CStr) (r : Int) :
    CachesTrue release c (.load path r :: s) :=
  ⟨h.proc, h.builtin, h.deps⟩

/-- What holds while a call works: the caches are true, and only its loads are logged. -/
def Working (release : CStr) (L : List (CStr × Int)) (c : Caches) (s : Log) : Prop :=
  CachesTrue release c s ∧ loads s = L

theorem ends_sys {k : ModCall} {I : Caches → Log → Prop} {Q : k.Ret → Caches → Log → Prop}
    (h : ∀ c s r t, I c s → AnsweredWhole release k s r t → Q r c t) :
    Ends (AnsweredWhole release) I (ModM.sys k) Q :=
  Ends.perform h

theorem ends_readInto {path : CStr} {set : Option Bytes → Caches → Caches}
    {I : Caches → Log → Prop} {Q : Int × Option Bytes → Caches → Log → Prop}
    (h : ∀ c s o, I c s → Whole (.read path) o →
      Q (ioRead none o) (set (ioRead none o).2 c) (.read path o :: s)) :
    Ends (AnsweredWhole release) I (readInto path set) Q := by
  refine Ends.bind (Q := fun o c t => Q (ioRead none o) (set (ioRead none o).2 c) t)
    (ends_sys ?_) fun o => ?_
  · rintro c s o t hI ⟨rfl, hwhole⟩
    exact h c s o hI hwhole
  · exact Ends.bind (Q := fun _ c t => Q (ioRead none o) c t) (Ends.modify _ fun _ _ h => h) fun _ =>
      Ends.pure fun _ _ h => h

/-- Nothing was read and the cache is empty, or the cache holds what was read. -/
def Filled (b : Option Bytes) (r : Int × Option Bytes) : Prop :=
  r = (-1, none) ∧ b = none ∨ ∃ d, r = (0, some d) ∧ b = some d

theorem filled_ioRead {path : CStr} {o : Opening} (h : Whole (.read path) o) :
    Filled (ioRead none o).2 (ioRead none o) ∧
      ∀ d, (ioRead none o).2 = some d → o.complete = some d := by
  rcases ioRead_whole h with hread | ⟨d, hread, hcomplete⟩
  · rw [hread]
    exact ⟨Or.inl ⟨rfl, rfl⟩, fun d hd => nomatch hd⟩
  · rw [hread]
    refine ⟨Or.inr ⟨d, rfl, rfl⟩, fun d' hd => ?_⟩
    cases hd
    exact hcomplete

/-- What follows the read of a cache: an error, or the answer from the cache. -/
theorem ends_filled {A : Type} {I : Caches → Log → Prop} {F : Caches → Option Bytes}
    {err : A} {f : Bytes → A} {Q : A → Caches → Log → Prop} (r : Int × Option Bytes)
    (herr : ∀ c s, I c s → Q err c s) (hf : ∀ c s d, I c s → F c = some d → Q (f d) c s) :
    Ends (AnsweredWhole release) (fun c s => I c s ∧ Filled (F c) r)
      (if r.1 ≠ 0 then pure err else pure (f (r.2.getD []))) Q := by
  refine Ends.ite (fun _ => Ends.pure fun c s h => herr c s h.1) fun hzero => Ends.pure ?_
  rintro c s ⟨hI, ⟨rfl, -⟩ | ⟨d, rfl, hd⟩⟩
  · exact absurd (by decide) hzero
  · exact hf c s d hI hd

theorem ends_isLoaded (name : CStr) (L : List (CStr × Int)) :
    Ends (AnsweredWhole release) (Working release L) (isLoaded name) fun a c t =>
      Working release L c t ∧ (a < 0 ∨ ∃ d, c.proc = some d ∧ a = scanModuleList d name) := by
  refine Ends.bind (Q := fun c' c s => Working release L c s ∧ c' = c)
    (Ends.get fun c s h => ⟨h, rfl⟩) fun c' => ?_
  cases hproc : c'.proc with
  | some d =>
    refine Ends.pure ?_
    rintro c s ⟨h, rfl⟩
    exact ⟨h, Or.inr ⟨d, hproc, rfl⟩⟩
  | none =>
    refine Ends.bind (ends_readInto (Q := fun r c t => Working release L c t ∧ Filled c.proc r) ?_)
      fun r => ends_filled (I := Working release L) (F := Caches.proc)
        (f := fun d => scanModuleList d name) r (fun c s h => ⟨h, Or.inl (by decide)⟩)
        fun c s d h hd => ⟨h, Or.inr ⟨d, hd, rfl⟩⟩
    rintro c s o ⟨⟨h, hL⟩, -⟩ hwhole
    obtain ⟨hfilled, hcomplete⟩ := filled_ioRead hwhole
    exact ⟨⟨h.fillProc hcomplete, hL⟩, hfilled⟩

theorem ends_isBuiltin (name : CStr) (L : List (CStr × Int)) (p : Option Bytes) :
    Ends (AnsweredWhole release) (fun c s => Working release L c s ∧ c.proc = p) (isBuiltin name)
      fun a c t => (Working release L c t ∧ c.proc = p) ∧
        (a < 0 ∨ ∃ d, c.builtin = some d ∧ a = scanModuleList d name) := by
  refine Ends.bind (Q := fun c' c s => (Working release L c s ∧ c.proc = p) ∧ c' = c)
    (Ends.get fun c s h => ⟨h, rfl⟩) fun c' => ?_
  cases hbuiltin : c'.builtin with
  | some d =>
    refine Ends.pure ?_
    rintro c s ⟨h, rfl⟩
    exact ⟨h, Or.inr ⟨d, hbuiltin, rfl⟩⟩
  | none =>
    refine Ends.bind (Q := fun r c s => (Working release L c s ∧ c.proc = p) ∧
      (r = none ∨ r = some release)) (ends_sys ?_) fun uts => ?_
    · rintro c s r t ⟨h, -⟩ ⟨⟨hr, rfl⟩, -⟩
      exact ⟨h, hr⟩
    · cases uts with
      | none => exact Ends.pure fun c s h => ⟨h.1, Or.inl (by decide)⟩
      | some r =>
        refine Ends.bind (ends_readInto
          (Q := fun r c t => (Working release L c t ∧ c.proc = p) ∧ Filled c.builtin r) ?_)
          fun r => ends_filled (I := fun c s => Working release L c s ∧ c.proc = p)
            (F := Caches.builtin) (f := fun d => scanModuleList d name) r
            (fun c s h => ⟨h, Or.inl (by decide)⟩) fun c s d h hd => ⟨h, Or.inr ⟨d, hd, rfl⟩⟩
        rintro c s o ⟨⟨⟨h, hL⟩, hp⟩, hr⟩ hwhole
        have hrel : r = release := by simpa using hr
        subst hrel
        obtain ⟨hfilled, hcomplete⟩ := filled_ioRead hwhole
        exact ⟨⟨⟨h.fillBuiltin hcomplete, hL⟩, hp⟩, hfilled⟩

theorem ends_checkModuleStatus (name : CStr) (L : List (CStr × Int)) :
    Ends (AnsweredWhole release) (Working release L) (checkModuleStatus name) fun a c t =>
      Working release L c t ∧ (a = -1 ∨ statusIn c.proc c.builtin name a) := by
  refine Ends.bind (ends_isLoaded name L) fun loaded => ?_
  refine Ends.ite (fun _ => Ends.pure fun c s h => ⟨h.1, Or.inl rfl⟩) fun hpos => ?_
  refine Ends.ite (fun hone => Ends.pure ?_) fun hne => ?_
  · rintro c s ⟨h, hneg | ⟨d, hd, hscan⟩⟩
    · exact absurd hneg hpos
    · exact ⟨h, Or.inr ⟨d, hd, Or.inl ⟨hscan ▸ hone, rfl⟩⟩⟩
  · intro c s h
    obtain ⟨d, hd, hscan⟩ := h.2.resolve_left hpos
    have hzero : scanModuleList d name = 0 :=
      (scanModuleList_cases d name).resolve_right fun h1 => hne (hscan.trans h1)
    have hrest : Ends (AnsweredWhole release) (fun c s => Working release L c s ∧ c.proc = some d)
        (isBuiltin name >>= fun builtin =>
          if builtin < 0 then pure (-1) else if builtin = 1 then pure 1 else pure 0)
        fun (a : Int) c t => Working release L c t ∧ (a = -1 ∨ statusIn c.proc c.builtin name a) := by
      refine Ends.bind (ends_isBuiltin name L (some d)) fun builtin => ?_
      refine Ends.ite (fun _ => Ends.pure fun c s h => ⟨h.1.1, Or.inl rfl⟩) fun hpos' => ?_
      refine Ends.ite (fun hone => Ends.pure fun c s h => ⟨h.1.1, Or.inr ?_⟩)
        fun hne' => Ends.pure fun c s h => ⟨h.1.1, Or.inr ?_⟩
      · obtain ⟨b, hb, hscan'⟩ := h.2.resolve_left hpos'
        exact ⟨d, h.1.2, Or.inr ⟨hzero, b, hb, (hscan' ▸ hone).symm⟩⟩
      · obtain ⟨b, hb, hscan'⟩ := h.2.resolve_left hpos'
        rw [hscan'] at hne'
        exact ⟨d, h.1.2, Or.inr ⟨hzero, b, hb,
          ((scanModuleList_cases b name).resolve_right hne').symm⟩⟩
    exact hrest c s ⟨h.1, hd⟩

/-- What is known of the first two caches, while modules are resolved and loaded. -/
def Resolving (release : CStr) (p b : Option Bytes) (L : List (CStr × Int)) (c : Caches) (s : Log) :
    Prop :=
  Working release L c s ∧ c.proc = p ∧ c.builtin = b

variable {p b : Option Bytes} {L : List (CStr × Int)}

theorem ends_loadDepsFile :
    Ends (AnsweredWhole release) (Resolving release p b L) (loadDepsFile (depPath release))
      fun a c t => Resolving release p b L c t ∧ (a = 0 → c.deps ≠ none) := by
  refine Ends.bind (Q := fun _ c s => Resolving release p b L c s ∧
    c.depsPath = (depPath release).take (depsPathMax - 1)) (Ends.modify _ ?_) fun _ => ?_
  · rintro c s ⟨⟨h, hL⟩, hp, hb⟩
    exact ⟨⟨⟨⟨h.proc, h.builtin, fun d hd => nomatch hd⟩, hL⟩, hp, hb⟩, rfl⟩
  · refine Ends.ite (fun _ => Ends.pure fun c s h => ⟨h.1, fun h0 => absurd h0 (by decide)⟩)
      fun hlen => ?_
    have hpath : (depPath release).take (depsPathMax - 1) = depPath release :=
      List.take_of_length_le (by unfold depsPathMax at hlen ⊢; omega)
    refine Ends.bind (ends_readInto
      (Q := fun r c t => Resolving release p b L c t ∧ Filled c.deps r) ?_) fun r => Ends.pure ?_
    · rintro c s o ⟨⟨⟨h, hL⟩, hp, hb⟩, hdeps⟩ hwhole
      obtain ⟨hfilled, hcomplete⟩ := filled_ioRead hwhole
      exact ⟨⟨⟨h.fillDeps hcomplete (hdeps.trans hpath), hL⟩, hp, hb⟩, hfilled⟩
    · rintro c s ⟨h, ⟨rfl, -⟩ | ⟨d, rfl, hd⟩⟩
      · exact ⟨h, fun h0 => absurd h0 (by decide)⟩
      · exact ⟨h, fun _ => by rw [hd]; exact Option.some_ne_none d⟩

theorem ends_freshDeps :
    Ends (AnsweredWhole release) (Resolving release p b L) (freshDeps (depPath release))
      fun a c t => Resolving release p b L c t ∧ (a = 0 → c.deps ≠ none) := by
  refine Ends.bind (Q := fun c' c s => Resolving release p b L c s ∧ c' = c)
    (Ends.get fun c s h => ⟨h, rfl⟩) fun c' => ?_
  refine Ends.ite (fun hmatch => Ends.pure ?_) fun _ => ends_loadDepsFile.conseq (fun c s h => h.1)
    fun a c s h => h
  rintro c s ⟨h, rfl⟩
  refine ⟨h, fun _ hnone => ?_⟩
  rw [cacheMatches, hnone] at hmatch
  cases hmatch

theorem ends_readDeps :
    Ends (AnsweredWhole release) (Resolving release p b L) readDeps
      fun r c t => Resolving release p b L c t ∧
        ∀ rel d, r = some (rel, d) → rel = release ∧ c.deps = some d := by
  refine Ends.bind (Q := fun r c s => Resolving release p b L c s ∧ (r = none ∨ r = some release))
    (ends_sys ?_) fun uts => ?_
  · rintro c s r t h ⟨⟨hr, rfl⟩, -⟩
    exact ⟨h, hr⟩
  · cases uts with
    | none => exact Ends.pure fun c s h => ⟨h.1, fun _ _ hr => nomatch hr⟩
    | some r =>
      intro c s h
      have hrel : r = release := by simpa using h.2
      subst hrel
      have hrest : Ends (AnsweredWhole r) (Resolving r p b L) (do
          let a ← freshDeps (depPath r)
          let c ← get
          pure (if a = 0 then some (r, c.deps.getD []) else none))
          fun (x : Option (CStr × Bytes)) c t => Resolving r p b L c t ∧
            ∀ rel d, x = some (rel, d) → rel = r ∧ c.deps = some d := by
        refine Ends.bind ends_freshDeps fun a => ?_
        refine Ends.bind (Q := fun c' c s => (Resolving r p b L c s ∧ (a = 0 → c.deps ≠ none)) ∧
          c' = c) (Ends.get fun c s h => ⟨h, rfl⟩) fun c' => Ends.pure ?_
        rintro c s ⟨⟨h, hdeps⟩, rfl⟩
        refine ⟨h, fun rel d hx => ?_⟩
        split at hx
        · rename_i hzero
          obtain ⟨d', hd'⟩ := Option.ne_none_iff_exists'.mp (hdeps hzero)
          rw [hd'] at hx
          cases hx
          exact ⟨rfl, hd'⟩
        · cases hx
      exact hrest c s h.1

theorem ends_resolveModule (name : CStr) :
    Ends (AnsweredWhole release) (Resolving release p b L) (resolveModule name)
      fun a c t => Resolving release p b L c t ∧
        (a = none ∨ ∃ d, c.deps = some d ∧ a = resolveIn release d name) := by
  refine Ends.bind ends_readDeps fun deps => ?_
  cases deps with
  | none => exact Ends.pure fun c s h => ⟨h.1, Or.inl rfl⟩
  | some deps =>
    obtain ⟨rel, d⟩ := deps
    refine Ends.pure fun c s h => ⟨h.1, Or.inr ⟨d, ?_⟩⟩
    obtain ⟨hrel, hd⟩ := h.2 rel d rfl
    exact ⟨hd, by rw [hrel]⟩

/-- The same once the index is in its cache. -/
def Loading (release : CStr) (p b : Option Bytes) (d : Bytes) (L : List (CStr × Int)) (c : Caches)
    (s : Log) : Prop :=
  Resolving release p b L c s ∧ c.deps = some d

variable {d : Bytes}

theorem ends_freshDeps_again :
    Ends (AnsweredWhole release) (Loading release p b d L) (freshDeps (depPath release))
      fun a c t => a = 0 ∧ Loading release p b d L c t := by
  refine Ends.bind (Q := fun c' c s => Loading release p b d L c s ∧ c' = c)
    (Ends.get fun c s h => ⟨h, rfl⟩) fun c' => ?_
  refine Ends.ite (fun _ => Ends.pure fun c s h => ⟨rfl, h.1⟩) fun hother => ?_
  rintro c s ⟨h, rfl⟩
  refine absurd ?_ hother
  rw [cacheMatches, h.2, (h.1.1.1.deps d h.2).1]
  exact beq_self_eq_true _

theorem ends_readDeps_again :
    Ends (AnsweredWhole release) (Loading release p b d L) readDeps
      fun r c t => Loading release p b d L c t ∧ (r = none ∨ r = some (release, d)) := by
  refine Ends.bind (Q := fun r c s => Loading release p b d L c s ∧ (r = none ∨ r = some release))
    (ends_sys ?_) fun uts => ?_
  · rintro c s r t h ⟨⟨hr, rfl⟩, -⟩
    exact ⟨h, hr⟩
  · cases uts with
    | none => exact Ends.pure fun c s h => ⟨h.1, Or.inl rfl⟩
    | some r =>
      intro c s h
      have hrel : r = release := by simpa using h.2
      subst hrel
      have hrest : Ends (AnsweredWhole r) (Loading r p b d L) (do
          let a ← freshDeps (depPath r)
          let c ← get
          pure (if a = 0 then some (r, c.deps.getD []) else none))
          fun (x : Option (CStr × Bytes)) c t => Loading r p b d L c t ∧
            (x = none ∨ x = some (r, d)) := by
        refine Ends.bind ends_freshDeps_again fun a => ?_
        refine Ends.bind (Q := fun c' c s => (a = 0 ∧ Loading r p b d L c s) ∧ c' = c)
          (Ends.get fun c s h => ⟨h, rfl⟩) fun c' => Ends.pure ?_
        rintro c s ⟨⟨hzero, h⟩, rfl⟩
        exact ⟨h, Or.inr (by rw [if_pos hzero, h.2, Option.getD_some])⟩
      exact hrest c s h.1

theorem ends_loadDep (name : CStr) :
    Ends (AnsweredWhole release) (Loading release p b d L) (loadDep name)
      fun r c t => ∃ L', Loading release p b d L' c t ∧
        (r = 0 → ∃ path ds, resolveIn release d name = some (path, ds) ∧ L' = (path, 0) :: L) := by
  have hresolve : Ends (AnsweredWhole release) (Loading release p b d L) (resolveModule name)
      fun a c t => Loading release p b d L c t ∧ (a = none ∨ a = resolveIn release d name) := by
    refine Ends.bind ends_readDeps_again fun deps => ?_
    cases deps with
    | none => exact Ends.pure fun c s h => ⟨h.1, Or.inl rfl⟩
    | some deps =>
      refine Ends.pure fun c s h => ⟨h.1, Or.inr ?_⟩
      obtain rfl : deps = (release, d) := by simpa using h.2
      rfl
  refine Ends.bind hresolve fun dep => ?_
  cases dep with
  | none => exact Ends.pure fun c s h => ⟨L, h.1, fun h0 => absurd h0 (by decide)⟩
  | some dep =>
    obtain ⟨path, ds⟩ := dep
    refine ends_sys ?_
    rintro c s r t ⟨⟨⟨⟨h, rfl⟩, hpb⟩, hd⟩, hdep⟩ ⟨rfl, -⟩
    refine ⟨(path, r) :: loads s, ⟨⟨⟨h.load path r, rfl⟩, hpb⟩, hd⟩, fun h0 => ?_⟩
    exact ⟨path, ds, (hdep.resolve_left (Option.some_ne_none _)).symm, by rw [h0]⟩

theorem ends_loadDeps (deps : List CStr) :
    Ends (AnsweredWhole release) (Loading release p b d L) (loadDeps deps)
      fun r c t => ∃ L', Loading release p b d L' c t ∧
        (r = 0 → ∃ paths, List.Forall₂ (fun dep p => ∃ ds, resolveIn release d dep = some (p, ds))
          deps paths ∧ L' = (paths.map fun p => (p, 0)).reverse ++ L) := by
  induction deps generalizing L with
  | nil => exact Ends.pure fun c s h => ⟨L, h, fun _ => ⟨[], List.Forall₂.nil, rfl⟩⟩
  | cons dep rest ih =>
    refine Ends.bind (ends_loadDep dep) fun r => ?_
    refine Ends.ite (fun _ => Ends.pure ?_) fun hzero => ?_
    · rintro c s ⟨L', h, -⟩
      exact ⟨L', h, fun h0 => absurd h0 (by decide)⟩
    · rintro c s ⟨L', h, hloaded⟩
      obtain ⟨path, ds, hpath, rfl⟩ := hloaded (not_not.mp hzero)
      refine Wp.mono ?_ _ (ih c s h)
      rintro ⟨r', c'⟩ t ⟨L'', h', hrest⟩
      refine ⟨L'', h', fun h0 => ?_⟩
      obtain ⟨paths, hpaths, rfl⟩ := hrest h0
      refine ⟨path :: paths, List.Forall₂.cons ⟨ds, hpath⟩ hpaths, ?_⟩
      rw [List.map_cons, List.reverse_cons, List.append_assoc, List.singleton_append]

theorem statusIn_contents {c : Caches} {t : Log} (h : CachesTrue release c t) {name : CStr} {a : Int}
    (hs : statusIn c.proc c.builtin name a) :
    statusIn (contents t procModules) (contents t (builtinPath release)) name a := by
  obtain ⟨d, hd, hcase⟩ := hs
  refine ⟨d, h.proc d hd, hcase.imp id ?_⟩
  rintro ⟨hzero, b, hb, ha⟩
  exact ⟨hzero, b, h.builtin b hb, ha⟩

/-- What is left of a load of a module whose line is in the index. -/
theorem ends_loadAll {name path : CStr} {deps : List CStr}
    (hresolve : resolveIn release d name = some (path, deps)) (hstatus : statusIn p b name 0) :
    Ends (AnsweredWhole release) (Loading release p b d L) (do
      let r ← loadDeps deps
      if r ≠ 0 then pure (-1)
      else do
        let r ← ModM.sys (.load path)
        if r = 0 then do
          modprobeCacheInvalidate
          pure r
        else pure r)
      fun (a : Int) c t => CachesTrue release c t ∧ (a ≠ 0 ∨
        statusIn (contents t procModules) (contents t (builtinPath release)) name 0 ∧
          ∃ d l, contents t (depPath release) = some d ∧ loadsIn release d name l ∧
            loads t = l.reverse ++ L) := by
  refine Ends.bind (ends_loadDeps deps) fun r => ?_
  refine Ends.ite (fun _ => Ends.pure ?_) fun hzero => ?_
  · rintro c s ⟨L', h, -⟩
    exact ⟨h.1.1.1, Or.inl (by omega)⟩
  · refine Ends.bind (Q := fun r c t => CachesTrue release c t ∧ (r ≠ 0 ∨
        statusIn (contents t procModules) (contents t (builtinPath release)) name 0 ∧
          ∃ d l, contents t (depPath release) = some d ∧ loadsIn release d name l ∧
            loads t = l.reverse ++ L)) (ends_sys ?_) fun r => ?_
    · rintro c s r t ⟨L', ⟨⟨⟨h, rfl⟩, rfl, rfl⟩, hdeps⟩, hloaded⟩ ⟨rfl, -⟩
      refine ⟨h.load path r, ?_⟩
      by_cases hr : r = 0
      · obtain ⟨paths, hpaths, hloads⟩ := hloaded (not_not.mp hzero)
        refine Or.inr ⟨statusIn_contents (h.load path r) hstatus, d,
          (paths ++ [path]).map fun p => (p, 0), (h.deps d hdeps).2,
          ⟨path, deps, paths, hresolve, hpaths, rfl⟩, ?_⟩
        rw [loads, hr, hloads, List.map_append, List.reverse_append]
        rfl
      · exact Or.inl hr
    · refine Ends.ite (fun _ => ?_) fun _ => Ends.pure fun c s h => h
      refine Ends.bind (Ends.modify _ fun c s h => ?_) fun _ => Ends.pure fun c s h => h
      exact ⟨⟨(fun d hd => nomatch hd), (fun d hd => nomatch hd), h.1.deps⟩, h.2⟩

/-- What is left of a load of a module that is neither loaded nor built in. -/
theorem ends_loadFound {name : CStr} (hstatus : statusIn p b name 0) :
    Ends (AnsweredWhole release) (Resolving release p b L)
      (resolveModule name >>= fun mod =>
        match mod with
        | none => pure (-1)
        | some (path, deps) => do
            let r ← loadDeps deps
            if r ≠ 0 then pure (-1)
            else do
              let r ← ModM.sys (.load path)
              if r = 0 then do
                modprobeCacheInvalidate
                pure r
              else pure r)
      fun (a : Int) c t => CachesTrue release c t ∧ (a ≠ 0 ∨
        statusIn (contents t procModules) (contents t (builtinPath release)) name 0 ∧
          ∃ d l, contents t (depPath release) = some d ∧ loadsIn release d name l ∧
            loads t = l.reverse ++ L) := by
  refine Ends.bind (ends_resolveModule name) fun mod => ?_
  cases mod with
  | none => exact Ends.pure fun c s h => ⟨h.1.1.1, Or.inl (by omega)⟩
  | some mod =>
    obtain ⟨path, deps⟩ := mod
    intro c s h
    obtain ⟨d, hd, hresolve⟩ := h.2.resolve_left (Option.some_ne_none _)
    exact ends_loadAll hresolve.symm hstatus c s ⟨h.1, hd⟩

theorem ends_modprobeLoad (name : CStr) :
    Ends (AnsweredWhole release) (Working release L) (modprobeLoad name)
      fun a c t => CachesTrue release c t ∧ (a ≠ 0 ∨
        statusIn (contents t procModules) (contents t (builtinPath release)) name 1 ∨
          statusIn (contents t procModules) (contents t (builtinPath release)) name 0 ∧
            ∃ d l, contents t (depPath release) = some d ∧ loadsIn release d name l ∧
              loads t = l.reverse ++ L) := by
  refine Ends.bind (ends_checkModuleStatus name L) fun status => ?_
  refine Ends.ite (fun _ => Ends.pure fun c s h => ⟨h.1.1, Or.inl (by omega)⟩) fun hpos => ?_
  refine Ends.ite (fun hone => Ends.pure fun c s h => ⟨h.1.1, Or.inr (Or.inl ?_)⟩) fun hne => ?_
  · exact hone ▸ statusIn_contents h.1.1 (h.2.resolve_left (by omega))
  · intro c s h
    have hstatus := h.2.resolve_left (show status ≠ -1 by omega)
    have hzero : status = 0 := by
      obtain ⟨d, -, ⟨-, h1⟩ | ⟨-, b, -, hb⟩⟩ := hstatus
      · exact absurd h1 hne
      · rw [hb] at hne ⊢
        exact (scanModuleList_cases b name).resolve_right hne
    rw [hzero] at hstatus
    refine Wp.mono ?_ _ (ends_loadFound hstatus c s ⟨h.1, rfl, rfl⟩)
    exact fun a t ha => ⟨ha.1, ha.2.imp id Or.inr⟩

/-- Each call, from true caches. -/
theorem ends_op (op : Op) (c : Caches) (s : Log) (h : CachesTrue release c s) :
    (op.prog.run c).Wp (AnsweredWhole release)
      (fun r t => op.Right release r.1 s t ∧ CachesTrue release r.2 t) s := by
  cases op with
  | status name =>
    refine Wp.mono ?_ _ (ends_checkModuleStatus name (loads s) c s ⟨h, rfl⟩)
    exact fun r t hr => ⟨hr.2.imp id (statusIn_contents hr.1.1), hr.1.1⟩
  | resolve name =>
    refine Wp.mono ?_ _ (ends_resolveModule name c s ⟨⟨h, rfl⟩, rfl, rfl⟩)
    rintro r t ⟨⟨⟨htrue, -⟩, -⟩, hr⟩
    refine ⟨hr.imp id ?_, htrue⟩
    rintro ⟨d, hd, ha⟩
    exact ⟨d, (htrue.deps d hd).2, ha⟩
  | load name =>
    refine Wp.mono ?_ _ (ends_modprobeLoad name c s ⟨h, rfl⟩)
    exact fun r t hr => ⟨hr.2, hr.1⟩

end Ends

/-- With no read that fails after its open, every sequence of calls answers from
complete, latest reads only. -/
theorem session_right (release : CStr) (ops : List Op) :
    Session release (AnsweredWhole release) ops Caches.empty [] := by
  have hgo : ∀ ops c s, CachesTrue release c s → Session release (AnsweredWhole release) ops c s := by
    intro ops
    induction ops with
    | nil => exact fun _ _ _ => trivial
    | cons op ops ih =>
      intro c s hc
      refine Wp.mono ?_ _ (ends_op op c s hc)
      rintro r t ⟨hright, htrue⟩
      exact ⟨hright, htrue, ih _ _ htrue⟩
  exact hgo ops _ _ ⟨(fun d hd => nomatch hd), (fun d hd => nomatch hd), (fun d hd => nomatch hd)⟩

/-- The read of `/proc/modules` fails after some bytes; the next call does not read it
again and answers that the module is not there. -/
theorem session_wrong : ¬ Session (lit "6.1") (Answered (lit "6.1"))
    [.status (lit "veth"), .status (lit "veth")] Caches.empty [] := by
  intro h
  have hfirst := h (.reads [some (lit "loop 1 0 - Live 0x0\n"), none]) _ rfl
  have hsecond := hfirst.2.2 (some (lit "6.1")) _ ⟨Or.inr rfl, rfl⟩ (.reads []) _ rfl
  rcases hsecond.1 with herr | ⟨d, hd, -⟩
  · exact absurd herr (by decide)
  · have hsome := congrArg Option.isSome hd
    rw [Option.isSome_some] at hsome
    exact absurd hsome (by decide)

end Cage.Pkg
