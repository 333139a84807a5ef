import Cage.Sandbox.GuiMounts
import Cage.Util.Decimal

/-!
The scan for the lowest display: `try_x_display` and `scan_lowest_x_socket` of
`src/sandbox/gui_x11.c`, and what `resolve_host_x11` gets from it. Any name that
`strtol` reads to its end counts, and its number is narrowed to an `int`.
-/

namespace Cage.Sandbox

open Util

def intMax : Int := 2 ^ 31 - 1

/-- The names in `/tmp/.X11-unix`; a directory that cannot be read has none. -/
def x11Names (host : HostView) : List CStr := (host.x11Dir.getD []).map DirEntry.name

/-- The entry of display `d`: an X and the number, as it is printed. -/
def Display (names : List CStr) (d : Int) : Prop :=
  0 ≤ d ∧ d ≤ intMax ∧ lit "X" ++ intStr d ∈ names

/-- What the scan is for. -/
def LowestDisplay (names : List CStr) (r : Int) : Prop :=
  (∀ d, ¬Display names d) ∧ r = -1 ∨ Display names r ∧ ∀ d, Display names d → r ≤ d

/-- The number that `strtol` reads from a whole name behind the X. -/
def readNumber (name : CStr) : Option Int :=
  if name.head? = some 88 ∧ (strtol name.tail).2 = [] ∧ 0 ≤ (strtol name.tail).1 then
    some (strtol name.tail).1
  else none

def numbers (names : List CStr) : List Int := names.filterMap readNumber

/-- The other names that `strtol` reads do no harm. One that fits an `int` has a
display that is no larger; so has the first one that narrows to no negative
number, for what it narrows to; and without displays the last one narrows to -1. -/
structure NoStray (names : List CStr) : Prop where
  fits : ∀ n ∈ numbers names, n ≤ intMax → ∃ d, Display names d ∧ d ≤ n
  first : ∀ n ∈ (numbers names).find? fun n => 0 ≤ intOfLong n,
    ∃ d, Display names d ∧ d ≤ intOfLong n
  last : ∀ n ∈ (numbers names).getLast?, (∃ d, Display names d) ∨ intOfLong n = -1

/-- The step of the scan on a number. -/
def lower (best n : Int) : Int := if best < 0 ∨ n < best then intOfLong n else best

theorem tryXDisplay_eq (name : CStr) (best : Int) :
    tryXDisplay name best = ((readNumber name).map (lower best)).getD best := by
  unfold tryXDisplay
  by_cases hx : name.head? = some 88
  · rw [if_neg (not_not_intro hx)]
    by_cases hread : (strtol name.tail).2 = [] ∧ 0 ≤ (strtol name.tail).1
    · have hnumber : readNumber name = some (strtol name.tail).1 := if_pos ⟨hx, hread⟩
      rw [hnumber, Option.map_some, Option.getD_some]
      exact if_congr (by simp [hread]) rfl rfl
    · have hnumber : readNumber name = none := if_neg fun h => hread h.2
      rw [hnumber]
      exact if_neg fun h => hread ⟨h.1, h.2.1⟩
  · have hnumber : readNumber name = none := if_neg fun h => hx h.1
    rw [if_pos hx, hnumber]
    rfl

theorem scanLowestXSocket_eq (host : HostView) :
    scanLowestXSocket host = (numbers (x11Names host)).foldl lower (-1) := by
  have hfold (es : List DirEntry) (best : Int) :
      es.foldl (fun best e => tryXDisplay e.name best) best =
        (numbers (es.map DirEntry.name)).foldl lower best := by
    induction es generalizing best with
    | nil => rfl
    | cons e es ih =>
      rw [List.foldl_cons, ih, tryXDisplay_eq]
      unfold numbers
      rw [List.map_cons, List.filterMap_cons]
      cases readNumber e.name <;> rfl
  unfold scanLowestXSocket x11Names
  cases host.x11Dir with
  | none => rfl
  | some es => exact hfold es (-1)

theorem intOfLong_of_le {n : Int} (h : 0 ≤ n) (hmax : n ≤ intMax) : intOfLong n = n := by
  unfold intOfLong
  unfold intMax at hmax
  omega

theorem intOfLong_le (n : Int) : intOfLong n ≤ intMax := by
  unfold intOfLong intMax
  omega

/-- Where the scan stands behind some numbers: all of them narrowed to negative
ones, or the first that did not bounds the best, which no later one is below. -/
def Stands (ns : List Int) (best : Int) : Prop :=
  ns.find? (fun n => 0 ≤ intOfLong n) = none ∧ best = (ns.getLast?.map intOfLong).getD (-1) ∧
      best < 0 ∨
    ∃ m, ns.find? (fun n => 0 ≤ intOfLong n) = some m ∧ 0 ≤ best ∧ best ≤ intOfLong m ∧
      (∀ n ∈ ns, n ≤ intMax → best ≤ n) ∧ (best = intOfLong m ∨ best ∈ ns)

theorem stands_snoc {ns : List Int} {best n : Int} (hns : ∀ x ∈ ns, 0 ≤ x) (hn : 0 ≤ n)
    (h : Stands ns best) : Stands (ns ++ [n]) (lower best n) := by
  unfold Stands at h ⊢
  rw [List.find?_append]
  rcases h with ⟨hnone, hlast, hneg⟩ | ⟨m, hfirst, hpos, hbound, hall, hfrom⟩
  · have hlow : lower best n = intOfLong n := if_pos (Or.inl hneg)
    have hearlier : ∀ x ∈ ns, ¬0 ≤ intOfLong x := by simpa using hnone
    rw [hlow, hnone, Option.none_or]
    by_cases hnarrow : 0 ≤ intOfLong n
    · refine Or.inr ⟨n, by simp [hnarrow], hnarrow, Int.le_refl _, ?_, Or.inl rfl⟩
      intro x hx hmax
      rcases List.mem_append.mp hx with hx | hx
      · have hsame := intOfLong_of_le (hns x hx) hmax
        exact absurd (hsame.symm ▸ hns x hx) (hearlier x hx)
      · obtain rfl := List.mem_singleton.mp hx
        exact Int.le_of_eq (intOfLong_of_le hn hmax)
    · exact Or.inl ⟨by simp [hnarrow], by simp, by omega⟩
  · have hmax := intOfLong_le m
    rw [hfirst, Option.some_or]
    refine Or.inr ⟨m, rfl, ?_⟩
    by_cases hless : n < best
    · have hlow : lower best n = n := by
        rw [lower, if_pos (Or.inr hless), intOfLong_of_le hn (by omega)]
      rw [hlow]
      refine ⟨hn, by omega, ?_, Or.inr (by simp)⟩
      intro x hx hx'
      rcases List.mem_append.mp hx with hx | hx
      · exact Int.le_trans (Int.le_of_lt hless) (hall x hx hx')
      · exact Int.le_of_eq (List.mem_singleton.mp hx).symm
    · have hlow : lower best n = best := if_neg (by omega)
      rw [hlow]
      refine ⟨hpos, hbound, ?_, hfrom.imp_right (List.mem_append_left _)⟩
      intro x hx hx'
      rcases List.mem_append.mp hx with hx | hx
      · exact hall x hx hx'
      · obtain rfl := List.mem_singleton.mp hx
        omega

theorem stands_foldl {ns : List Int} (hns : ∀ n ∈ ns, 0 ≤ n) : Stands ns (ns.foldl lower (-1)) := by
  induction ns using List.reverseRecOn with
  | nil => exact Or.inl ⟨rfl, rfl, by decide⟩
  | append_singleton ns n ih =>
    rw [List.foldl_append]
    have hearlier : ∀ x ∈ ns, 0 ≤ x := fun x hx => hns x (List.mem_append_left _ hx)
    exact stands_snoc hearlier (hns n (by simp)) (ih hearlier)

theorem numbers_nonneg {names : List CStr} : ∀ n ∈ numbers names, 0 ≤ n := by
  intro n hn
  obtain ⟨name, -, hread⟩ := List.mem_filterMap.mp hn
  unfold readNumber at hread
  split at hread
  · rename_i h
    cases hread
    exact h.2.2
  · cases hread

theorem Display.mem_numbers {names : List CStr} {d : Int} (h : Display names d) :
    d ∈ numbers names := by
  obtain ⟨hpos, hmax, hmem⟩ := h
  refine List.mem_filterMap.mpr ⟨_, hmem, ?_⟩
  unfold intMax at hmax
  have hread := strtol_intStr (show d.toNat < 2 ^ 63 by omega)
  rw [Int.toNat_of_nonneg hpos] at hread
  have htail : (lit "X" ++ intStr d).tail = intStr d := rfl
  unfold readNumber
  rw [htail, hread]
  exact if_pos ⟨rfl, rfl, hpos⟩

theorem lowestDisplay_iff {names : List CStr} {r : Int} (h : Stands (numbers names) r) :
    LowestDisplay names r ↔ NoStray names := by
  have hnarrow (d : Int) (hd : Display names d) : 0 ≤ intOfLong d := by
    rw [intOfLong_of_le hd.1 hd.2.1]
    exact hd.1
  constructor
  · rintro (⟨hno, rfl⟩ | ⟨hr, hleast⟩)
    · rcases h with ⟨hnone, hlast, -⟩ | ⟨m, -, hpos, -⟩
      · have hneg : ∀ n ∈ numbers names, ¬0 ≤ intOfLong n := by simpa using hnone
        refine ⟨fun n hn hmax => ?_, fun n hn => ?_, fun n hn => Or.inr ?_⟩
        · have hsame := intOfLong_of_le (numbers_nonneg n hn) hmax
          exact absurd (hsame.symm ▸ numbers_nonneg n hn) (hneg n hn)
        · rw [hnone] at hn
          cases hn
        · rw [Option.mem_def.mp hn] at hlast
          exact hlast.symm
      · exact absurd hpos (by decide)
    · rcases h with ⟨-, -, hneg⟩ | ⟨m, hfirst, -, hbound, hall, -⟩
      · exact absurd hr.1 (Int.not_le.mpr hneg)
      · refine ⟨fun n hn hmax => ⟨r, hr, hall n hn hmax⟩, fun n hn => ⟨r, hr, ?_⟩,
          fun _ _ => Or.inl ⟨r, hr⟩⟩
        rw [hfirst] at hn
        cases hn
        exact hbound
  · intro hstray
    rcases h with ⟨hnone, hlast, -⟩ | ⟨m, hfirst, hpos, hbound, hall, hfrom⟩
    · have hneg : ∀ n ∈ numbers names, ¬0 ≤ intOfLong n := by simpa using hnone
      have hno (d : Int) : ¬Display names d := fun hd => hneg d hd.mem_numbers (hnarrow d hd)
      refine Or.inl ⟨hno, ?_⟩
      cases hend : (numbers names).getLast? with
      | none =>
        rw [hend] at hlast
        exact hlast
      | some n =>
        rw [hend] at hlast
        rcases hstray.last n hend with ⟨d, hd⟩ | hone
        · exact absurd hd (hno d)
        · exact hlast.trans hone
    · have hleast (d : Int) (hd : Display names d) : r ≤ d := hall d hd.mem_numbers hd.2.1
      have hbelow : ∃ d, Display names d ∧ d ≤ r := by
        rcases hfrom with rfl | hmem
        · exact hstray.first m hfirst
        · exact hstray.fits r hmem (Int.le_trans hbound (intOfLong_le m))
      obtain ⟨d, hd, hle⟩ := hbelow
      obtain rfl := Int.le_antisymm hle (hleast d hd)
      exact Or.inr ⟨hd, hleast⟩

/-- A display that the scan finds has its entry. -/
def ScanFound (host : HostView) : Prop :=
  ∀ hostN n, hostN < 0 → resolveHostX11 host hostN = some n → lit "X" ++ intStr n ∈ x11Names host

theorem LowestDisplay.scanFound {host : HostView}
    (h : LowestDisplay (x11Names host) (scanLowestXSocket host)) : ScanFound host := by
  intro hostN n hneg hresolve
  unfold resolveHostX11 at hresolve
  rw [if_neg (Int.not_le.mpr hneg)] at hresolve
  split at hresolve
  · split at hresolve
    · cases hresolve
    · rename_i hfound
      cases hresolve
      rcases h with ⟨-, hnone⟩ | ⟨hdisplay, -⟩
      · exact absurd (show scanLowestXSocket host < 0 by omega) hfound
      · exact hdisplay.2.2
  · cases hresolve

/-- The scan gives the lowest display, and a display that `resolve_host_x11`
takes from it has its entry, exactly if no stray name does harm. -/
theorem scanLowestXSocket_iff (host : HostView) :
    LowestDisplay (x11Names host) (scanLowestXSocket host) ∧ ScanFound host ↔
      NoStray (x11Names host) := by
  have hstands := stands_foldl (@numbers_nonneg (x11Names host))
  rw [← scanLowestXSocket_eq] at hstands
  rw [← lowestDisplay_iff hstands]
  exact and_iff_left_of_imp LowestDisplay.scanFound

/-- A host whose directory has the socket of display 5 and a name with a sign. -/
def signHost : HostView where
  getenv _ := none
  «exists» _ := 0
  isdir _ := 0
  access _ := true
  x11Dir := some [⟨lit "X5", true, by decide⟩, ⟨lit "X+3", true, by decide⟩]

/-- The scan answers 3, for which there is no entry. -/
theorem scanLowestXSocket_sign :
    ¬(LowestDisplay (x11Names signHost) (scanLowestXSocket signHost) ∧ ScanFound signHost) := by
  rintro ⟨-, hfound⟩
  have hentry : lit "X" ++ intStr 3 ∈ x11Names signHost :=
    hfound (-1) 3 (by decide) (by decide +kernel)
  exact absurd hentry (by decide +kernel)

end Cage.Sandbox
