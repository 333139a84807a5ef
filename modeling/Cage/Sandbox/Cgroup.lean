import Cage.Lib.Checked
import Cage.Lib.Lines
import Cage.Util.CStr

/-!
The controller names of `/proc/cgroups`: `advance_line` and `read_proc_cgroups`
of `src/sandbox/cgroup.c`. The rows belong to the caller; both callers allocate
`CGROUP_MAX_CTRL` of them. Every write of a row is checked.
-/

namespace Cage.Sandbox

open Lib.Checked Lib.Lines Util

abbrev Rows := List (List UInt8)

def cgroupMaxCtrl : Nat := 32

def ctrlSize : Nat := 64

def newline : UInt8 := 10

def tab : UInt8 := 9

def hash : UInt8 := 35

/-- `char ctrls[CGROUP_MAX_CTRL][64]`, with any bytes in it. -/
structure CtrlTable where
  rows : Rows
  count : rows.length = cgroupMaxCtrl
  width : ∀ row ∈ rows, row.length = ctrlSize

def advanceLine (p : CStr) : CStr :=
  match strchr p newline with
  | some nl => nl.drop 1
  | none => []

/-- `memcpy(names[n], p, l)` and the NUL behind it. -/
def putName (n : Nat) (p : CStr) (l : Nat) : Exec Rows Unit := do
  let names ← get
  let row ← load names n
  let row ← copyTo row p 0 l
  let row ← store row l 0
  let names ← store names n row
  set names

/-- The loop of `read_proc_cgroups`; `n` rows are written. -/
def readNames : Nat → CStr → Nat → Exec Rows Nat
  | _, [], n => pure n
  | 0, _ :: _, _ => fault .fuel
  | fuel + 1, c :: s, n =>
      if c = hash then readNames fuel (advanceLine (c :: s)) n
      else
        match strchr (c :: s) tab with
        | none => readNames fuel (advanceLine (c :: s)) n
        | some t => do
            putName n (c :: s) (min ((c :: s).length - t.length) 63)
            readNames fuel (advanceLine (c :: s)) (n + 1)

/-- `read_proc_cgroups`; `file` is what `read_cgroups_file` leaves in the
buffer, or nothing when it fails. -/
def readProcCgroups (file : Option (List UInt8)) : Exec Rows Int :=
  match file with
  | none => pure (-1)
  | some data => do
      let n ← readNames (data.length + 1) (cstring data) 0
      pure (n : Int)

/-- The first field of a line, as far as a row holds it. -/
def firstField (line : CStr) : CStr := (line.takeWhile (· ≠ tab)).take 63

/-- The rows are the first fields of some of the lines, in their order. -/
def RowsOfLines (text : CStr) (rows : Rows) : Prop :=
  ∃ ls : List CStr, ls.Sublist (lines newline text) ∧ (∀ l ∈ ls, l.head? ≠ some hash) ∧
    rows.map cstring = ls.map firstField

/-- What a call may leave: nothing written, or the first rows of the table. -/
def InTable (file : Option (List UInt8)) (before : CtrlTable) (r : Int) (names : Rows) : Prop :=
  match file with
  | none => r = -1 ∧ names = before.rows
  | some data => ∃ n : Nat, r = n ∧ n ≤ cgroupMaxCtrl ∧ names.length = cgroupMaxCtrl ∧
      names.drop n = before.rows.drop n ∧ RowsOfLines (cstring data) (names.take n)

/-- A row is written here: no comment starts, and a tab stands here or behind. -/
def Counted (p : CStr) : Prop := p.head? ≠ some hash ∧ tab ∈ p

instance (p : CStr) : Decidable (Counted p) := by
  unfold Counted
  infer_instance

/-- The line starts at which a row is written. -/
def rowStarts (text : CStr) : List CStr := (starts newline text).filter fun p => Counted p

/-- At most as many rows as the table has, and each from a line that has a tab
of its own or is as long as a row. -/
def FitsTable (text : CStr) : Prop :=
  (rowStarts text).length ≤ cgroupMaxCtrl ∧
    ∀ p ∈ rowStarts text, tab ∈ lineOf newline p ∨ 63 ≤ (lineOf newline p).length

instance (text : CStr) : Decidable (FitsTable text) := by
  unfold FitsTable
  infer_instance

theorem advanceLine_eq (p : CStr) : advanceLine p = behind newline p := by
  unfold advanceLine
  by_cases h : newline ∈ p
  · obtain ⟨l, s, rfl, hl⟩ := List.eq_append_cons_of_mem h
    rw [strchr_append hl, behind_append_line hl]
    rfl
  · rw [strchr_none h, behind_last h]

/-- The tab may stand in a later line; then the row runs on into it. -/
theorem strchr_tab {p t : CStr} (h : strchr p tab = some t) :
    (p.takeWhile (· ≠ tab)).length = p.length - t.length := by
  have hmem : tab ∈ p := by
    by_contra hno
    rw [strchr_none hno] at h
    cases h
  obtain ⟨a, v, rfl, ha⟩ := List.eq_append_cons_of_mem hmem
  rw [strchr_append ha] at h
  cases h
  have hfield : (a ++ tab :: v).takeWhile (· ≠ tab) = a := lineOf_append_line ha v
  rw [hfield, List.length_append, Nat.add_sub_cancel]

theorem firstField_eq (p : CStr) :
    firstField p = p.take (min (p.takeWhile (· ≠ tab)).length 63) := by
  have hfield : p.takeWhile (· ≠ tab) = p.take (p.takeWhile (· ≠ tab)).length :=
    List.prefix_iff_eq_take.mp (List.takeWhile_prefix _)
  calc firstField p = (p.take (p.takeWhile (· ≠ tab)).length).take 63 := by rw [← hfield]; rfl
    _ = p.take (min (p.takeWhile (· ≠ tab)).length 63) := by rw [List.take_take, Nat.min_comm]

/-- A row after the `memcpy` of `l` bytes and the NUL. -/
theorem set_copied {p row : List UInt8} {l : Nat} (hp : l ≤ p.length) (hrow : l < row.length) :
    ((p.drop 0).take l ++ row.drop l).set l 0 = p.take l ++ 0 :: row.drop (l + 1) := by
  have hlen : ((p.drop 0).take l).length = l := by rw [List.drop_zero, List.length_take]; omega
  rw [List.set_append_right _ _ (by omega), hlen, Nat.sub_self, List.drop_eq_getElem_cons hrow,
    List.set_cons_zero, List.drop_zero]

theorem putName_spec {names : Rows} {n : Nat} {p : CStr} (hn : n < names.length)
    (hwidth : ∀ row ∈ names, row.length = ctrlSize) (hp : (0 : UInt8) ∉ p) :
    Ends (putName n p (min (p.takeWhile (· ≠ tab)).length 63)) names fun _ names' =>
      ∃ row, names' = names.set n row ∧ row.length = ctrlSize ∧ cstring row = firstField p := by
  obtain ⟨l, hl⟩ : ∃ l, l = min (p.takeWhile (· ≠ tab)).length 63 := ⟨_, rfl⟩
  have hlp : l ≤ p.length := by
    have hle := (List.takeWhile_sublist (fun c : UInt8 => decide (c ≠ tab)) (l := p)).length_le
    omega
  have hold : names[n].length = ctrlSize := hwidth _ (List.getElem_mem hn)
  have hroom : l < names[n].length := by rw [hold, ctrlSize]; omega
  have hset := set_copied hlp hroom
  have hlen : ((p.drop 0).take l ++ names[n].drop l).length = ctrlSize := by
    rw [List.length_append, List.length_take, List.length_drop, List.length_drop]
    omega
  rw [firstField_eq, ← hl]
  refine Ends.get_bind ?_
  refine Ends.load_bind (List.getElem?_eq_getElem hn) ?_
  refine Ends.copyTo_bind (by omega) (by omega) ?_
  refine Ends.store_bind (by rw [hlen, ← hold]; exact hroom) ?_
  refine Ends.store_bind hn ?_
  refine ⟨(), _, rfl, _, rfl, by rw [List.length_set, hlen], ?_⟩
  rw [hset]
  exact cstring_append (fun hzero => hp (List.mem_of_mem_take hzero)) _

/-- Behind the last row of the table there is no place for another. -/
theorem putName_full {names : Rows} {n l : Nat} {p : CStr} {q : Unit → Rows → Prop}
    (hn : names.length ≤ n) : ¬Ends (putName n p l) names q := fun h =>
  absurd h.of_get_bind.lt_of_load (Nat.not_lt.mpr hn)

/-- Rows written from place `n` on, one for each start. -/
def Wrote (names names' : Rows) (n : Nat) (ps : List CStr) : Prop :=
  ∃ new : Rows, names' = names.take n ++ new ++ names.drop (n + new.length) ∧
    new.map cstring = ps.map firstField ∧ (∀ row ∈ new, row.length = ctrlSize)

theorem wrote_nil (names : Rows) (n : Nat) : Wrote names names n [] :=
  ⟨[], by simp, rfl, fun row hrow => absurd hrow List.not_mem_nil⟩

theorem Wrote.cons {names names' : Rows} {n : Nat} {row : List UInt8} {p : CStr} {ps : List CStr}
    (hn : n < names.length) (hrow : row.length = ctrlSize) (hfield : cstring row = firstField p)
    (h : Wrote (names.set n row) names' (n + 1) ps) : Wrote names names' n (p :: ps) := by
  obtain ⟨new, rfl, hnew, hwidth⟩ := h
  refine ⟨row :: new, ?_, ?_, ?_⟩
  · have hfront : (names.set n row).take (n + 1) = names.take n ++ [row] := by
      rw [List.take_succ_eq_append_getElem (by rw [List.length_set]; exact hn),
        List.take_set_of_le (Nat.le_refl n), List.getElem_set_self]
    have hback : (names.set n row).drop (n + 1 + new.length) =
        names.drop (n + (row :: new).length) := by
      rw [List.drop_set_of_lt (by omega), List.length_cons]
      congr 1
      omega
    rw [hfront, hback]
    simp
  · rw [List.map_cons, List.map_cons, hfield, hnew]
  · intro r hr
    rcases List.mem_cons.mp hr with rfl | hr
    · exact hrow
    · exact hwidth r hr

/-- One round of the loop. -/
theorem readNames_line {p : CStr} (hne : p ≠ []) (fuel n : Nat) :
    readNames (fuel + 1) p n =
      if Counted p then do
        putName n p (min (p.takeWhile (· ≠ tab)).length 63)
        readNames fuel (behind newline p) (n + 1)
      else readNames fuel (behind newline p) n := by
  cases p with
  | nil => exact absurd rfl hne
  | cons c s =>
    rw [readNames, advanceLine_eq]
    by_cases hc : c = hash
    · rw [if_pos hc, if_neg fun h => h.1 (congrArg some hc)]
    · rw [if_neg hc]
      by_cases htab : tab ∈ c :: s
      · rw [if_pos ⟨fun h => hc (Option.some.inj h), htab⟩]
        obtain ⟨t, ht⟩ : ∃ t, strchr (c :: s) tab = some t := by
          obtain ⟨a, v, heq, ha⟩ := List.eq_append_cons_of_mem htab
          rw [heq]
          exact ⟨_, strchr_append ha⟩
        rw [ht, strchr_tab ht]
      · rw [if_neg fun h => htab h.2, strchr_none htab]

theorem rowStarts_line {p : CStr} (hne : p ≠ []) :
    rowStarts p =
      if Counted p then p :: rowStarts (behind newline p) else rowStarts (behind newline p) := by
  unfold rowStarts
  rw [starts_of_ne_nil hne, List.filter_cons]
  simp only [decide_eq_true_eq]

theorem zero_notMem_behind {p : CStr} (hp : (0 : UInt8) ∉ p) : 0 ∉ behind newline p := fun h =>
  hp ((List.dropWhile_sublist _).mem ((List.drop_sublist 1 _).mem h))

theorem width_set {names : Rows} (hwidth : ∀ row ∈ names, row.length = ctrlSize) {n : Nat}
    {row : List UInt8} (hrow : row.length = ctrlSize) : ∀ r ∈ names.set n row, r.length = ctrlSize := by
  intro r hr
  rcases List.mem_or_eq_of_mem_set hr with hr | rfl
  · exact hwidth r hr
  · exact hrow

/-- The loop writes a row for each counted line start, if the rows suffice. -/
theorem readNames_spec {names : Rows} {n fuel : Nat} {p : CStr}
    (hwidth : ∀ row ∈ names, row.length = ctrlSize) (hp : (0 : UInt8) ∉ p)
    (hfuel : p.length < fuel) (hroom : n + (rowStarts p).length ≤ names.length) :
    Ends (readNames fuel p n) names fun r names' =>
      r = n + (rowStarts p).length ∧ Wrote names names' n (rowStarts p) := by
  induction fuel generalizing p n names with
  | zero => cases hfuel
  | succ fuel ih =>
    by_cases hne : p = []
    · subst hne
      exact ⟨n, names, rfl, rfl, wrote_nil names n⟩
    · have hshort := length_behind_lt newline hne
      have hzero := zero_notMem_behind hp
      rw [readNames_line hne]
      rw [rowStarts_line hne] at hroom ⊢
      by_cases hcounted : Counted p
      · rw [if_pos hcounted] at hroom ⊢
        rw [if_pos hcounted]
        rw [List.length_cons] at hroom ⊢
        refine Ends.bind (putName_spec (by omega) hwidth hp) ?_
        rintro - names₁ ⟨row, rfl, hrow, hfield⟩
        refine (ih (width_set hwidth hrow) hzero (by omega)
          (by rw [List.length_set]; omega)).mono ?_
        rintro r names' ⟨rfl, hwrote⟩
        exact ⟨by omega, hwrote.cons (by omega) hrow hfield⟩
      · rw [if_neg hcounted] at hroom ⊢
        rw [if_neg hcounted]
        exact ih hwidth hzero (by omega) hroom

/-- With more line starts to count than rows the loop leaves the table. -/
theorem readNames_full {names : Rows} {n fuel : Nat} {p : CStr} {q : Nat → Rows → Prop}
    (hwidth : ∀ row ∈ names, row.length = ctrlSize) (hp : (0 : UInt8) ∉ p)
    (hn : n ≤ names.length) (hfull : names.length < n + (rowStarts p).length) :
    ¬Ends (readNames fuel p n) names q := by
  induction fuel generalizing p n names with
  | zero =>
    cases p with
    | nil => exact absurd hfull (Nat.not_lt.mpr hn)
    | cons c s =>
      rintro ⟨a, s', hrun, -⟩
      cases hrun
  | succ fuel ih =>
    by_cases hne : p = []
    · subst hne
      exact absurd hfull (Nat.not_lt.mpr hn)
    · have hzero := zero_notMem_behind hp
      rw [readNames_line hne]
      rw [rowStarts_line hne] at hfull
      by_cases hcounted : Counted p
      · rw [if_pos hcounted] at hfull ⊢
        rw [List.length_cons] at hfull
        by_cases hlast : n = names.length
        · exact fun h => putName_full (Nat.le_of_eq hlast.symm) h.of_bind_left
        · intro h
          obtain ⟨-, names₁, ⟨row, rfl, hrow, -⟩, hrest⟩ :=
            h.of_bind (putName_spec (by omega) hwidth hp)
          exact ih (width_set hwidth hrow) hzero (by rw [List.length_set]; omega)
            (by rw [List.length_set]; omega) hrest
      · rw [if_neg hcounted] at hfull ⊢
        exact ih hwidth hzero hn hfull

theorem firstField_noNewline (line : CStr) (h : newline ∉ line) : newline ∉ firstField line :=
  fun hmem => h ((List.takeWhile_sublist _).mem (List.mem_of_mem_take hmem))

/-- A row is a field of its line exactly if the line itself ends the row. -/
theorem firstField_line {p : CStr} (htab : tab ∈ p) :
    (tab ∈ lineOf newline p ∨ 63 ≤ (lineOf newline p).length) ∧
        firstField p = firstField (lineOf newline p) ∨
      ¬(tab ∈ lineOf newline p ∨ 63 ≤ (lineOf newline p).length) ∧ newline ∈ firstField p := by
  rcases eq_line newline p with ⟨hline, hno⟩ | hline
  · refine Or.inl ⟨Or.inl (hline ▸ htab), ?_⟩
    rw [← hline]
  · by_cases hown : tab ∈ lineOf newline p
    · refine Or.inl ⟨Or.inl hown, ?_⟩
      obtain ⟨a, v, heq, ha⟩ := List.eq_append_cons_of_mem hown
      have hshort : (lineOf newline p).takeWhile (· ≠ tab) = a := by
        rw [heq]
        exact lineOf_append_line ha v
      have hlong : p.takeWhile (· ≠ tab) = a := by
        rw [hline, heq, List.append_assoc]
        exact lineOf_append_line ha _
      unfold firstField
      rw [hshort, hlong]
    · have hall : ∀ c ∈ lineOf newline p, decide (c ≠ tab) = true :=
        fun c hc => decide_eq_true fun heq => hown (heq ▸ hc)
      have hlong : p.takeWhile (· ≠ tab) = lineOf newline p ++
          newline :: (behind newline p).takeWhile (· ≠ tab) := by
        conv_lhs => rw [hline]
        rw [List.takeWhile_append_of_pos hall, List.takeWhile_cons_of_pos (by decide)]
      have hshort : (lineOf newline p).takeWhile (· ≠ tab) = lineOf newline p :=
        List.takeWhile_eq_self_iff.mpr hall
      by_cases hsize : 63 ≤ (lineOf newline p).length
      · refine Or.inl ⟨Or.inr hsize, ?_⟩
        unfold firstField
        rw [hlong, hshort, List.take_append_of_le_length hsize]
      · refine Or.inr ⟨fun h => h.elim hown hsize, ?_⟩
        unfold firstField
        rw [hlong, List.take_append, List.mem_append]
        refine Or.inr ?_
        obtain ⟨k, hk⟩ : ∃ k, 63 - (lineOf newline p).length = k + 1 :=
          ⟨62 - (lineOf newline p).length, by omega⟩
        rw [hk, List.take_succ_cons]
        exact List.mem_cons_self

theorem head_lineOf {p : CStr} (h : p.head? ≠ some hash) : (lineOf newline p).head? ≠ some hash := by
  cases p with
  | nil => exact h
  | cons c s =>
    unfold lineOf
    rw [List.takeWhile_cons]
    split
    · exact h
    · exact nofun

theorem rowsOfLines_iff {text : CStr} {rows : Rows}
    (hrows : rows.map cstring = (rowStarts text).map firstField) :
    RowsOfLines text rows ↔
      ∀ p ∈ rowStarts text, tab ∈ lineOf newline p ∨ 63 ≤ (lineOf newline p).length := by
  have hcounted : ∀ p ∈ rowStarts text, Counted p := fun p hp => by
    simpa using (List.mem_filter.mp hp).2
  constructor
  · rintro ⟨ls, hsub, -, heq⟩ p hp
    rcases firstField_line (hcounted p hp).2 with ⟨hown, -⟩ | ⟨-, hrun⟩
    · exact hown
    · -- a field of a line cannot hold the end of a line
      exfalso
      have hmem : firstField p ∈ ls.map firstField := by
        rw [← heq, hrows]
        exact List.mem_map_of_mem hp
      obtain ⟨l, hl, hfield⟩ := List.mem_map.mp hmem
      rw [← hfield] at hrun
      have hline := hsub.mem hl
      rw [lines_eq] at hline
      obtain ⟨q, -, rfl⟩ := List.mem_map.mp hline
      exact firstField_noNewline _ (nl_notMem_lineOf newline q) hrun
  · intro hown
    refine ⟨(rowStarts text).map (lineOf newline), ?_, ?_, ?_⟩
    · rw [lines_eq]
      exact List.filter_sublist.map _
    · intro l hl
      obtain ⟨p, hp, rfl⟩ := List.mem_map.mp hl
      exact head_lineOf (hcounted p hp).1
    · rw [hrows, List.map_map]
      refine List.map_congr_left fun p hp => ?_
      rcases firstField_line (hcounted p hp).2 with ⟨-, heq⟩ | ⟨hno, -⟩
      · exact heq
      · exact absurd (hown p hp) hno

theorem zero_notMem_cstring (mem : List UInt8) : (0 : UInt8) ∉ cstring mem := fun h => by
  simpa using List.mem_takeWhile_imp h

theorem readProcCgroups_fits (before : CtrlTable) (data : List UInt8) :
    Ends (readProcCgroups (some data)) before.rows (InTable (some data) before) ↔
      FitsTable (cstring data) := by
  have hzero := zero_notMem_cstring data
  have hfuel : (cstring data).length < data.length + 1 :=
    Nat.lt_succ_of_le (List.takeWhile_sublist _).length_le
  by_cases hroom : (rowStarts (cstring data)).length ≤ cgroupMaxCtrl
  · have hloop := readNames_spec before.width hzero hfuel
      (show 0 + (rowStarts (cstring data)).length ≤ before.rows.length by
        rw [before.count, Nat.zero_add]; exact hroom)
    obtain ⟨r, names, hrun, rfl, new, rfl, hnew, -⟩ := hloop
    have hcount : new.length = (rowStarts (cstring data)).length := by
      rw [← List.length_map cstring, hnew, List.length_map]
    rw [Nat.zero_add, List.take_zero, List.nil_append, Nat.zero_add] at hrun
    have hcall : readProcCgroups (some data) before.rows =
        .ok (((rowStarts (cstring data)).length : Int), new ++ before.rows.drop new.length) :=
      run_bind hrun
    have htake : (new ++ before.rows.drop new.length).take (rowStarts (cstring data)).length =
        new := by
      rw [← hcount, List.take_left]
    have hlines := rowsOfLines_iff hnew
    constructor
    · intro h
      obtain ⟨n, hn, -, -, -, hrows⟩ := h.of_run hcall
      rw [← Int.ofNat.inj hn, htake] at hrows
      exact ⟨hroom, hlines.mp hrows⟩
    · intro hfits
      refine ⟨_, _, hcall, _, rfl, hroom, ?_, ?_, ?_⟩
      · rw [List.length_append, List.length_drop, before.count]
        omega
      · rw [← hcount, List.drop_left]
      · rw [htake]
        exact hlines.mpr hfits.2
  · refine iff_of_false (fun h => ?_) fun h => hroom h.1
    refine readNames_full before.width hzero (Nat.zero_le _) ?_ h.of_bind_left
    rw [before.count, Nat.zero_add]
    exact Nat.not_le.mp hroom

/-- `read_proc_cgroups` stays in the table of its caller, and each row is the
first field of a line of its own, exactly for the contents that fit. -/
theorem readProcCgroups_iff (before : CtrlTable) (file : Option (List UInt8)) :
    Ends (readProcCgroups file) before.rows (InTable file before) ↔
      ∀ data, file = some data → FitsTable (cstring data) := by
  cases file with
  | none => exact iff_of_true ⟨-1, before.rows, rfl, rfl, rfl⟩ nofun
  | some data =>
    rw [readProcCgroups_fits]
    exact ⟨fun h data' hdata => Option.some.inj hdata ▸ h, fun h => h data rfl⟩

/-- A table of the callers, as it lies on their stack. -/
def ctrls : CtrlTable where
  rows := List.replicate cgroupMaxCtrl (List.replicate ctrlSize 0)
  count := List.length_replicate
  width row hrow := by rw [List.eq_of_mem_replicate hrow, List.length_replicate]

/-- Thirty-three lines leave the table, and the row of a line without a tab takes
in the line behind it. -/
theorem readProcCgroups_outside :
    ¬Ends (readProcCgroups (some (List.replicate 33 (lit "a\t1\n")).flatten)) ctrls.rows
        (InTable (some (List.replicate 33 (lit "a\t1\n")).flatten) ctrls) ∧
      ¬Ends (readProcCgroups (some (lit "cpu\nmemory\t0\t1\t1\n"))) ctrls.rows
        (InTable (some (lit "cpu\nmemory\t0\t1\t1\n")) ctrls) := by
  rw [readProcCgroups_fits, readProcCgroups_fits]
  decide +kernel

end Cage.Sandbox
