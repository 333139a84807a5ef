import Mathlib.Data.List.TakeWhile
import Mathlib.Logic.Relation
import Cage.Pkg.Modules

/-!
The index that `depmod` writes, `modules.dep`, and what the program reads in it:
each module of the index is found by its name, with the names of the modules its
line lists.
-/

namespace Cage.Pkg

open Lib.Lines Util

/-- A byte that neither ends a path in the index nor a C string. -/
def plain (c : UInt8) : Bool := !isSpace c && c != 58 && c != 0

/-- The file of a module, under the directory of the release. -/
structure ModFile where
  dir : Bytes
  base : Bytes
  suffix : Bytes
  dirPlain : ∀ c ∈ dir, plain c = true
  dirEnds : dir = [] ∨ ∃ d, dir = d ++ [47]
  basePlain : ∀ c ∈ base, plain c = true ∧ c ≠ 47
  baseSome : base ≠ []
  suffixOk : modFormatSuffixOk suffix = true
  deriving DecidableEq

/-- The file without its directory. -/
def ModFile.file (m : ModFile) : Bytes := m.base ++ lit ".ko" ++ m.suffix

def ModFile.path (m : ModFile) : Bytes := m.dir ++ m.file

/-- Names are the same up to `-` and `_`. -/
def ModFile.Named (m : ModFile) (name : Bytes) : Prop :=
  name.map underscored = m.base.map underscored

instance (m : ModFile) (name : Bytes) : Decidable (m.Named name) :=
  inferInstanceAs (Decidable (_ = _))

/-- The modules of a release. `needs` are the modules whose symbols a module uses;
`listed` is the line of each. -/
structure DepIndex where
  mods : List ModFile
  needs : ModFile → List ModFile
  listed : ModFile → List ModFile
  /-- no two modules have one name -/
  names : mods.Pairwise fun m n => ¬ m.Named n.base
  acyclic : ∀ m, ¬ Relation.TransGen (fun a b => b ∈ needs a) m m
  /-- a line lists what the module depends on, directly or not -/
  all : ∀ m ∈ mods, ∀ x, x ∈ listed m ↔ Relation.TransGen (fun a b => b ∈ needs a) m x
  present : ∀ m ∈ mods, ∀ x ∈ listed m, x ∈ mods
  /-- and every module in it before those that this one depends on -/
  order : ∀ m ∈ mods, (listed m).Pairwise fun x y =>
    ¬ Relation.TransGen (fun a b => b ∈ needs a) y x

def depWords (l : List ModFile) : Bytes := l.flatMap fun d => 32 :: d.path

def depLine (m : ModFile) (l : List ModFile) : Bytes := m.path ++ 58 :: depWords l

def DepIndex.text (d : DepIndex) : Bytes := d.mods.flatMap fun m => depLine m (d.listed m) ++ [10]

section Lines

/-- The name of a path starts behind its last slash. -/
theorem skipToNameFrom_base {s b : Bytes} (h : 47 ∉ b) : skipToNameFrom s b = s := by
  induction b with
  | nil => rfl
  | cons c b ih =>
    rw [List.mem_cons, not_or] at h
    rw [skipToNameFrom, if_neg (Ne.symm h.1), ih h.2]

theorem skipToNameFrom_dir {s d b : Bytes} (h : 47 ∉ b) :
    skipToNameFrom s (d ++ 47 :: b) = b := by
  induction d generalizing s with
  | nil => rw [List.nil_append, skipToNameFrom, if_pos rfl, skipToNameFrom_base h]
  | cons c d ih =>
    rw [List.cons_append, skipToNameFrom]
    split
    · exact ih
    · exact ih

theorem wordsFrom_word {w a s : Bytes} (h : ∀ c ∈ a, isSpace c = false) :
    wordsFrom w (a ++ s) = wordsFrom (w ++ a) s := by
  induction a generalizing w with
  | nil => rw [List.nil_append, List.append_nil]
  | cons c a ih =>
    rw [List.cons_append, wordsFrom, if_neg (by rw [h c List.mem_cons_self]; exact Bool.false_ne_true),
      ih fun d hd => h d (List.mem_cons_of_mem c hd), List.append_assoc, List.singleton_append]

end Lines

section Files

theorem suffix_cases {s : Bytes} (h : modFormatSuffixOk s = true) :
    s = [] ∨ s = lit ".gz" ∨ s = lit ".xz" ∨ s = lit ".zst" := by
  simp only [modFormatSuffixOk, Bool.or_eq_true, beq_iff_eq] at h
  tauto

theorem plain_all {s : Bytes} (h : (s.all fun c => plain c && c != 47) = true) :
    ∀ c ∈ s, plain c = true ∧ c ≠ 47 := by
  intro c hc
  have hboth := List.all_eq_true.mp h c hc
  rw [Bool.and_eq_true, bne_iff_ne] at hboth
  exact hboth

variable (m : ModFile)

theorem plain_file : ∀ c ∈ m.file, plain c = true ∧ c ≠ 47 := by
  intro c hc
  rw [ModFile.file, List.mem_append, List.mem_append] at hc
  have hko := plain_all (s := lit ".ko") (by decide)
  have hgz := plain_all (s := lit ".gz") (by decide)
  have hxz := plain_all (s := lit ".xz") (by decide)
  have hzst := plain_all (s := lit ".zst") (by decide)
  rcases hc with (hc | hc) | hc
  · exact m.basePlain c hc
  · exact hko c hc
  · rcases suffix_cases m.suffixOk with h | h | h | h
    · rw [h] at hc
      cases hc
    · exact hgz c (h ▸ hc)
    · exact hxz c (h ▸ hc)
    · exact hzst c (h ▸ hc)

theorem plain_path : ∀ c ∈ m.path, plain c = true := by
  intro c hc
  rcases List.mem_append.mp hc with hc | hc
  · exact m.dirPlain c hc
  · exact (plain_file m c hc).1

theorem plain_iff (c : UInt8) : plain c = true ↔ isSpace c = false ∧ c ≠ 58 ∧ c ≠ 0 := by
  simp only [plain, Bool.and_eq_true, Bool.not_eq_true', bne_iff_ne, ne_eq, and_assoc]

theorem space_path : ∀ c ∈ m.path, isSpace c = false :=
  fun c hc => ((plain_iff c).mp (plain_path m c hc)).1

theorem file_ne_nil : m.file ≠ [] := by
  rw [ModFile.file, List.append_assoc]
  exact List.append_ne_nil_of_left_ne_nil m.baseSome _

theorem path_ne_nil : m.path ≠ [] := List.append_ne_nil_of_right_ne_nil _ (file_ne_nil m)

theorem skipToName_dir {b : Bytes} (h : 47 ∉ b) : skipToName (m.dir ++ b) = b := by
  unfold skipToName
  rcases m.dirEnds with hdir | ⟨d, hdir⟩
  · rw [hdir, List.nil_append, skipToNameFrom_base h]
  · rw [hdir, List.append_assoc, List.singleton_append, skipToNameFrom_dir h]

theorem skipToName_path : skipToName m.path = m.file :=
  skipToName_dir m fun h => (plain_file m 47 h).2 rfl

theorem parseDepLine_depLine (l : List ModFile) :
    parseDepLine (depLine m l) = some (m.path, depWords l) := by
  have hcolon : ∀ c ∈ m.path, (c != 58) = true := fun c hc =>
    bne_iff_ne.mpr ((plain_iff c).mp (plain_path m c hc)).2.1
  have hdrop : (depLine m l).dropWhile (fun c => c != 58) = 58 :: depWords l := by
    rw [depLine, List.dropWhile_append_of_pos hcolon]
    rfl
  have htake : (depLine m l).takeWhile (fun c => c != 58) = m.path := by
    rw [depLine, List.takeWhile_append_of_pos hcolon]
    exact List.append_nil _
  rw [parseDepLine, hdrop, htake]

/-- The end of a file name tells how much of it is the suffix. -/
theorem base_unique {a b s t : Bytes} (hs : modFormatSuffixOk s = true)
    (ht : modFormatSuffixOk t = true) (h : a ++ lit ".ko" ++ s = b ++ lit ".ko" ++ t) : a = b := by
  have hko : (lit ".ko").reverse = [111, 107, 46] := by decide
  have hgz : (lit ".gz").reverse = [122, 103, 46] := by decide
  have hxz : (lit ".xz").reverse = [122, 120, 46] := by decide
  have hzst : (lit ".zst").reverse = [116, 115, 122, 46] := by decide
  have hrev := congrArg List.reverse h
  simp only [List.reverse_append, hko] at hrev
  refine List.reverse_injective ?_
  clear h
  rcases suffix_cases hs with rfl | rfl | rfl | rfl <;>
    rcases suffix_cases ht with rfl | rfl | rfl | rfl <;>
    simp_all

theorem moduleNameEq_iff {name s : Bytes} : moduleNameEq name s name.length = true ↔
    name.map underscored = (s.take name.length).map underscored := by
  simp only [moduleNameEq, Bool.and_eq_true, beq_self_eq_true, true_and, beq_iff_eq]

theorem nameMatches_file (name : Bytes) : nameMatches name m.file = true ↔ m.Named name := by
  have hmatch : nameMatches name m.file = true ↔ name.length + 3 ≤ m.file.length ∧
      (m.file.drop name.length).take 3 = lit ".ko" ∧
      name.map underscored = (m.file.take name.length).map underscored ∧
      modFormatSuffixOk (m.file.drop (name.length + 3)) = true := by
    unfold nameMatches
    rw [← moduleNameEq_iff]
    by_cases hlen : m.file.length < name.length + 3
    · simp [hlen]
    · by_cases hko : (m.file.drop name.length).take 3 = lit ".ko"
      · simp [hlen, hko, Nat.not_lt.mp hlen]
      · simp [hlen, hko]
  rw [hmatch]
  constructor
  · rintro ⟨-, hko, hname, hsuffix⟩
    have hsplit : m.base ++ lit ".ko" ++ m.suffix =
        m.file.take name.length ++ lit ".ko" ++ m.file.drop (name.length + 3) := by
      calc m.base ++ lit ".ko" ++ m.suffix = m.file := rfl
        _ = m.file.take name.length ++ m.file.drop name.length := (List.take_append_drop _ _).symm
        _ = m.file.take name.length ++ ((m.file.drop name.length).take 3 ++
              (m.file.drop name.length).drop 3) := by rw [List.take_append_drop 3]
        _ = _ := by rw [hko, List.drop_drop, List.append_assoc]
    rw [← base_unique m.suffixOk hsuffix hsplit] at hname
    exact hname
  · intro hname
    have hlen : name.length = m.base.length := by simpa using congrArg List.length hname
    have hthree : (lit ".ko").length = 3 := by decide
    have hdrop : m.file.drop name.length = lit ".ko" ++ m.suffix := by
      rw [hlen, ModFile.file, List.append_assoc, List.drop_left]
    refine ⟨?_, ?_, ?_, ?_⟩
    · simp only [ModFile.file, List.length_append, hthree]
      omega
    · rw [hdrop, ← hthree, List.take_left]
    · rw [hlen, ModFile.file, List.append_assoc, List.take_left]
      exact hname
    · rw [← List.drop_drop, hdrop, ← hthree, List.drop_left]
      exact m.suffixOk

theorem koAt_end {f x : Bytes} (k : Nat) : koAt (f ++ x) (f.length + k + 3) =
    if (x.drop k).take 3 = lit ".ko" then f.length + k + 3 else koAt (f ++ x) (f.length + k + 2) := by
  have hslice : ((f ++ x).drop (f.length + k + 3 - 3)).take 3 = (x.drop k).take 3 := by
    rw [Nat.add_sub_cancel, ← List.drop_drop, List.drop_left]
  rw [koAt, hslice]
  by_cases hko : (x.drop k).take 3 = lit ".ko"
  · rw [if_pos hko, if_neg fun h => h.2 hko]
  · rw [if_neg hko, if_pos ⟨by omega, hko⟩]

/-- The last `.ko` of a file is the one before its suffix. -/
theorem koAt_suffix {f s : Bytes} (hs : modFormatSuffixOk s = true) :
    koAt (f ++ (lit ".ko" ++ s)) (f ++ (lit ".ko" ++ s)).length = f.length + 3 := by
  have hthree : (lit ".ko").length = 3 := by decide
  have hstop : ∀ t, koAt (f ++ (lit ".ko" ++ t)) (f.length + 3) = f.length + 3 := by
    intro t
    refine (koAt_end (x := lit ".ko" ++ t) 0).trans (if_pos ?_)
    rw [List.drop_zero, ← hthree, List.take_left]
  rw [List.length_append, List.length_append, hthree]
  rcases suffix_cases hs with rfl | rfl | rfl | rfl
  · exact hstop []
  · refine (koAt_end (x := lit ".ko" ++ lit ".gz") 3).trans ((if_neg (by decide)).trans ?_)
    refine (koAt_end (x := lit ".ko" ++ lit ".gz") 2).trans ((if_neg (by decide)).trans ?_)
    refine (koAt_end (x := lit ".ko" ++ lit ".gz") 1).trans ((if_neg (by decide)).trans ?_)
    exact hstop _
  · refine (koAt_end (x := lit ".ko" ++ lit ".xz") 3).trans ((if_neg (by decide)).trans ?_)
    refine (koAt_end (x := lit ".ko" ++ lit ".xz") 2).trans ((if_neg (by decide)).trans ?_)
    refine (koAt_end (x := lit ".ko" ++ lit ".xz") 1).trans ((if_neg (by decide)).trans ?_)
    exact hstop _
  · refine (koAt_end (x := lit ".ko" ++ lit ".zst") 4).trans ((if_neg (by decide)).trans ?_)
    refine (koAt_end (x := lit ".ko" ++ lit ".zst") 3).trans ((if_neg (by decide)).trans ?_)
    refine (koAt_end (x := lit ".ko" ++ lit ".zst") 2).trans ((if_neg (by decide)).trans ?_)
    refine (koAt_end (x := lit ".ko" ++ lit ".zst") 1).trans ((if_neg (by decide)).trans ?_)
    exact hstop _

theorem tryAddDep_path : tryAddDep m.path = some m.base := by
  have hthree : (lit ".ko").length = 3 := by decide
  have hpath : m.path = (m.dir ++ m.base) ++ (lit ".ko" ++ m.suffix) := by
    simp only [ModFile.path, ModFile.file, List.append_assoc]
  have hbase : 0 < m.base.length := List.length_pos_iff.mpr m.baseSome
  have hko : koAt m.path m.path.length = (m.dir ++ m.base).length + 3 := by
    rw [hpath, koAt_suffix m.suffixOk]
  have hlong : ¬ m.path.length ≤ 3 := by
    rw [hpath]
    simp only [List.length_append, hthree]
    omega
  have htake : m.path.take (m.dir ++ m.base).length = m.dir ++ m.base := by
    rw [hpath, List.take_left]
  have hdrop : m.path.drop ((m.dir ++ m.base).length + 3) = m.suffix := by
    rw [hpath, ← List.drop_drop, List.drop_left, ← hthree, List.drop_left]
  unfold tryAddDep
  rw [if_neg hlong]
  dsimp only
  rw [hko, if_neg (by omega), hdrop, m.suffixOk, Nat.add_sub_cancel, htake,
    skipToName_dir m fun h => (m.basePlain 47 h).2 rfl]
  rfl

theorem wordsFrom_depWords (l : List ModFile) (w : Bytes) :
    wordsFrom w (depWords l) = (if w = [] then [] else [w]) ++ l.map ModFile.path := by
  induction l generalizing w with
  | nil =>
    rw [List.map_nil, List.append_nil]
    rfl
  | cons d l ih =>
    have hspace : isSpace 32 = true := by decide
    have hrest : wordsFrom [] (d.path ++ depWords l) = d.path :: l.map ModFile.path := by
      rw [wordsFrom_word (space_path d), ih, List.nil_append, if_neg (path_ne_nil d)]
      rfl
    rw [depWords, List.flatMap_cons, List.cons_append, wordsFrom, if_pos hspace]
    split
    · exact hrest
    · exact congrArg (w :: ·) hrest

theorem extractDeps_depWords (l : List ModFile) : extractDeps (depWords l) = l.map ModFile.base := by
  rw [extractDeps, wordsFrom_depWords, if_pos rfl, List.nil_append, List.filterMap_map]
  exact List.filterMap_eq_map_iff_forall_eq_some.mpr fun m _ => tryAddDep_path m

theorem newline_depLine (l : List ModFile) : 10 ∉ depLine m l := by
  have hspace : isSpace 10 = true := by decide
  have hpath : ∀ n : ModFile, 10 ∉ n.path := by
    intro n hn
    have hno := space_path n 10 hn
    rw [hspace] at hno
    cases hno
  intro h
  rcases List.mem_append.mp h with h | h
  · exact hpath m h
  · rcases List.mem_cons.mp h with h | h
    · exact absurd h (by decide)
    · obtain ⟨n, -, hn⟩ := List.mem_flatMap.mp h
      rcases List.mem_cons.mp hn with hn | hn
      · exact absurd hn (by decide)
      · exact hpath n hn

theorem findInDeps_depLine (l : List ModFile) (name : Bytes) :
    findInDeps (depLine m l) name = decide (m.Named name) := by
  unfold findInDeps
  rw [parseDepLine_depLine]
  dsimp only
  rw [if_neg (path_ne_nil m), skipToName_path, Bool.eq_iff_iff, decide_eq_true_iff]
  exact nameMatches_file m name

/-- The first line of that name, whatever the lines are. -/
theorem resolveIn_lines {data : Bytes} {es : List (ModFile × List ModFile)}
    (hlines : lines 10 data = es.map fun e => depLine e.1 e.2) (release name : Bytes) :
    resolveIn release data name = (es.find? fun e => decide (e.1.Named name)).map fun e =>
      (buildModulesPath modulesBase release e.1.path, e.2.map ModFile.base) := by
  have hfind : (es.map fun e => depLine e.1 e.2).find? (fun line => findInDeps line name) =
      (es.find? fun e => decide (e.1.Named name)).map fun e => depLine e.1 e.2 := by
    rw [List.find?_map]
    refine congrArg (Option.map _) (congrArg (fun p => es.find? p) (funext fun e => ?_))
    exact findInDeps_depLine e.1 e.2 name
  rw [resolveIn, findInBuf, hlines, hfind]
  cases es.find? fun e => decide (e.1.Named name) with
  | none => rfl
  | some e =>
    dsimp only [Option.map_some]
    rw [parseDepLine_depLine]
    dsimp only
    rw [extractDeps_depWords]

end Files

section Index

variable (d : DepIndex)

/-- The module of that name. -/
def DepIndex.find (name : Bytes) : Option ModFile := d.mods.find? fun m => decide (m.Named name)

theorem lines_text : lines 10 d.text = d.mods.map fun m => depLine m (d.listed m) := by
  have htext : d.text = (d.mods.map fun m => depLine m (d.listed m)).flatMap fun l => l ++ [10] := by
    rw [List.flatMap_map]
    rfl
  rw [htext]
  refine lines_flatMap ?_
  intro l hl
  obtain ⟨m, -, rfl⟩ := List.mem_map.mp hl
  exact newline_depLine m _

/-- A name resolves to the module that has it, and to what its line lists. -/
theorem resolveIn_text (release name : Bytes) : resolveIn release d.text name =
    (d.find name).map fun m =>
      (buildModulesPath modulesBase release m.path, (d.listed m).map ModFile.base) := by
  have hlines : lines 10 d.text =
      (d.mods.map fun m => (m, d.listed m)).map fun e => depLine e.1 e.2 := by
    rw [lines_text, List.map_map]
    rfl
  rw [resolveIn_lines hlines, List.find?_map, Option.map_map]
  rfl

/-- Two modules of the index with one name are one. -/
theorem named_unique {m n : ModFile} (hm : m ∈ d.mods) (hn : n ∈ d.mods) (h : m.Named n.base) :
    m = n := by
  by_contra hne
  have hsymm : Std.Symm fun m n : ModFile => ¬ m.Named n.base := ⟨fun _ _ hab hba => hab hba.symm⟩
  exact d.names.forall hm hn hne h

theorem find_some {m : ModFile} {name : Bytes} (h : d.find name = some m) :
    m ∈ d.mods ∧ m.Named name := by
  unfold DepIndex.find at h
  have hnamed := List.find?_some h
  exact ⟨List.mem_of_find?_eq_some h, of_decide_eq_true hnamed⟩

theorem find_named {m : ModFile} {name : Bytes} (hm : m ∈ d.mods) (h : m.Named name) :
    d.find name = some m := by
  have hsome : (d.find name).isSome := by
    rw [DepIndex.find, List.find?_isSome]
    exact ⟨m, hm, decide_eq_true h⟩
  obtain ⟨n, hn⟩ := Option.isSome_iff_exists.mp hsome
  obtain ⟨hmem, hnamed⟩ := find_some d hn
  have hsame : n = m := named_unique d hmem hm (h.symm.trans hnamed)
  rw [hn, hsame]

theorem find_base {m : ModFile} (hm : m ∈ d.mods) : d.find m.base = some m := find_named d hm rfl

/-- Files of the index with one path are one. -/
theorem path_unique {m n : ModFile} (hm : m ∈ d.mods) (hn : n ∈ d.mods) (h : m.path = n.path) :
    m = n := by
  have hfile : m.file = n.file := by rw [← skipToName_path, h, skipToName_path]
  have hbase : m.base = n.base := base_unique m.suffixOk n.suffixOk hfile
  exact named_unique d hm hn (hbase ▸ rfl)

end Index

end Cage.Pkg
