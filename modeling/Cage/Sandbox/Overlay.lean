import Cage.Lib.Checked
import Cage.Lib.Escaping
import Cage.Util.CStr

/-!
The options of the overlay mount: `build_overlay_opts` of
`src/sandbox/overlay.c` writing into the memory it has asked for, and the
grammar in which the kernel reads them.
-/

namespace Cage.Sandbox

open Lib.Checked Lib.Escaping Util

/-- The bytes in front of a terminating NUL. -/
abbrev CString := { s : CStr // 0 ∉ s }

def needsEscape (c : UInt8) : Bool := c = 92 || c = 44

def countEscapes : CStr → Nat
  | [] => 0
  | c :: s => if needsEscape c then countEscapes s + 1 else countEscapes s

/-- `*p++ = c`, into an allocation. -/
def putByte (c : UInt8) (p : Nat) : Exec (List UInt8) Nat := do
  set (← store (← get) p c)
  pure (p + 1)

def putPfx : CStr → Nat → Exec (List UInt8) Nat
  | [], p => pure p
  | c :: s, p => do putPfx s (← putByte c p)

def putEscaped : CStr → Nat → Exec (List UInt8) Nat
  | [], p => pure p
  | c :: s, p => do
      let p ← if needsEscape c then putByte 92 p else pure p
      putEscaped s (← putByte c p)

def appendComp (p : Nat) (pfx s : CStr) : Exec (List UInt8) Nat := do
  putEscaped s (← putPfx pfx p)

/-- The allocation holds whatever `fill` says until it is written. The three
strings are in memory, so `total` is far from wrapping around. -/
def buildOverlayOpts (fill : Nat → UInt8) (lower upper work : CStr) :
    Exec (List UInt8) Unit := do
  let extra := countEscapes lower + countEscapes upper + countEscapes work
  let total := 33 + lower.length + upper.length + work.length + extra * 3
  set ((List.range total).map fill)
  let p ← appendComp 0 (lit "lowerdir=") lower
  let p ← appendComp p (lit ",upperdir=") upper
  let p ← appendComp p (lit ",workdir=") work
  set (← store (← get) p 0)

/-- What an overlay mount is told; the last of several options of one name counts. -/
structure OverlayConfig where
  lowerdirs : List CStr
  upperdir : Option CStr
  workdir : Option CStr
  deriving DecidableEq, Repr

def keyValue (o : CStr) : CStr × CStr :=
  (o.takeWhile (· ≠ 61), (o.dropWhile (· ≠ 61)).drop 1)

def parseOption (c : OverlayConfig) (o : CStr) : Option OverlayConfig :=
  let kv := keyValue o
  if o = [] then some c
  else if kv.1 = lit "lowerdir" then some { c with lowerdirs := items 92 58 kv.2 }
  else if kv.1 = lit "upperdir" then some { c with upperdir := some (unescape 92 kv.2) }
  else if kv.1 = lit "workdir" then some { c with workdir := some (unescape 92 kv.2) }
  else none

/-- The kernel's reading of the options of an overlay mount. -/
def parseOverlay (text : CStr) : Option OverlayConfig :=
  (fields 92 44 text).foldlM parseOption { lowerdirs := [], upperdir := none, workdir := none }

/-- The text that `build_overlay_opts` writes. -/
def overlayText (lower upper work : CStr) : CStr :=
  lit "lowerdir=" ++ escape 92 needsEscape lower ++
    (lit ",upperdir=" ++ escape 92 needsEscape upper) ++
    (lit ",workdir=" ++ escape 92 needsEscape work)

theorem countEscapes_eq (s : CStr) : countEscapes s = s.countP needsEscape := by
  induction s with
  | nil => rfl
  | cons c s ih =>
    rw [countEscapes, List.countP_cons, ih]
    split <;> rfl

theorem putByte_ends (c x : UInt8) (w r : List UInt8) :
    Ends (putByte c w.length) (w ++ x :: r) fun p mem =>
      p = (w ++ [c]).length ∧ mem = w ++ [c] ++ r := by
  unfold putByte
  refine Ends.get_bind (Ends.store_bind (by simp) (Ends.set_bind (Ends.pure ⟨by simp, ?_⟩)))
  rw [List.set_append_right _ _ (Nat.le_refl _), Nat.sub_self]
  simp

theorem putPfx_ends (t w r : List UInt8) (h : t.length ≤ r.length) :
    Ends (putPfx t w.length) (w ++ r) fun p mem =>
      p = (w ++ t).length ∧ mem = w ++ t ++ r.drop t.length := by
  induction t generalizing w r with
  | nil => exact Ends.pure ⟨by simp, by simp⟩
  | cons c t ih =>
    obtain ⟨x, r', rfl⟩ := List.exists_cons_of_length_pos (show 0 < r.length by
      exact Nat.lt_of_lt_of_le (Nat.succ_pos _) h)
    refine Ends.bind (putByte_ends c x w r') ?_
    rintro p mem ⟨rfl, rfl⟩
    have hlen : t.length ≤ r'.length := Nat.le_of_succ_le_succ h
    exact (ih (w ++ [c]) r' hlen).mono fun p mem hpost => by simpa using hpost

theorem putEscaped_ends (s w r : List UInt8)
    (h : (escape 92 needsEscape s).length ≤ r.length) :
    Ends (putEscaped s w.length) (w ++ r) fun p mem =>
      p = (w ++ escape 92 needsEscape s).length ∧
        mem = w ++ escape 92 needsEscape s ++ r.drop (escape 92 needsEscape s).length := by
  induction s generalizing w r with
  | nil => exact Ends.pure ⟨by simp [escape], by simp [escape]⟩
  | cons c s ih =>
    have hlast : ∀ (w r : List UInt8), (escape 92 needsEscape s).length + 1 ≤ r.length →
        Ends (do putEscaped s (← putByte c w.length)) (w ++ r) fun p mem =>
          p = (w ++ c :: escape 92 needsEscape s).length ∧
            mem = w ++ c :: escape 92 needsEscape s ++
              r.drop (c :: escape 92 needsEscape s).length := by
      intro w r hr
      obtain ⟨x, r', rfl⟩ := List.exists_cons_of_length_pos (show 0 < r.length by omega)
      refine Ends.bind (putByte_ends c x w r') ?_
      rintro p mem ⟨rfl, rfl⟩
      have hlen : (escape 92 needsEscape s).length ≤ r'.length := Nat.le_of_succ_le_succ hr
      exact (ih (w ++ [c]) r' hlen).mono fun p mem hpost => by simpa using hpost
    unfold putEscaped
    rw [escape] at h ⊢
    split at h
    · rename_i hc
      rw [if_pos hc, if_pos hc]
      obtain ⟨x, r', rfl⟩ := List.exists_cons_of_length_pos (show 0 < r.length by
        exact Nat.lt_of_lt_of_le (Nat.succ_pos _) h)
      refine Ends.bind (putByte_ends 92 x w r') ?_
      rintro p mem ⟨rfl, rfl⟩
      have hlen : (escape 92 needsEscape s).length + 1 ≤ r'.length := Nat.le_of_succ_le_succ h
      exact (hlast (w ++ [92]) r' hlen).mono fun p mem hpost => by simpa using hpost
    · rename_i hc
      rw [if_neg hc, if_neg hc]
      exact hlast w r h

theorem appendComp_ends (pfx s w r : List UInt8)
    (h : pfx.length + (escape 92 needsEscape s).length ≤ r.length) :
    Ends (appendComp w.length pfx s) (w ++ r) fun p mem =>
      p = (w ++ (pfx ++ escape 92 needsEscape s)).length ∧
        mem = w ++ (pfx ++ escape 92 needsEscape s) ++
          r.drop (pfx.length + (escape 92 needsEscape s).length) := by
  unfold appendComp
  refine Ends.bind (putPfx_ends pfx w r (by omega)) ?_
  rintro p mem ⟨rfl, rfl⟩
  refine (putEscaped_ends s (w ++ pfx) _ (by rw [List.length_drop]; omega)).mono ?_
  rintro p mem ⟨hp, hmem⟩
  rw [List.drop_drop] at hmem
  exact ⟨by simpa using hp, by simpa using hmem⟩

/-- The text and its terminator fit the allocation, whatever has to be escaped. -/
theorem buildOverlayOpts_ends (fill : Nat → UInt8) (lower upper work : CStr) (mem : List UInt8) :
    Ends (buildOverlayOpts fill lower upper work) mem fun _ mem' =>
      ∃ rest, mem' = overlayText lower upper work ++ 0 :: rest := by
  unfold buildOverlayOpts
  simp only [countEscapes_eq]
  refine Ends.set_bind ?_
  generalize hblock : (List.range (33 + lower.length + upper.length + work.length +
    (lower.countP needsEscape + upper.countP needsEscape + work.countP needsEscape) * 3)).map fill
    = block
  have hlen : block.length = 33 + lower.length + upper.length + work.length +
      (lower.countP needsEscape + upper.countP needsEscape + work.countP needsEscape) * 3 := by
    rw [← hblock, List.length_map, List.length_range]
  have hl : (escape 92 needsEscape lower).length = _ := length_escape lower
  have hu : (escape 92 needsEscape upper).length = _ := length_escape upper
  have hw : (escape 92 needsEscape work).length = _ := length_escape work
  have hpl : (lit "lowerdir=").length = 9 := rfl
  have hpu : (lit ",upperdir=").length = 10 := rfl
  have hpw : (lit ",workdir=").length = 9 := rfl
  refine Ends.bind (appendComp_ends _ lower [] block (by omega)) ?_
  rintro p mem₁ ⟨rfl, rfl⟩
  refine Ends.bind (appendComp_ends _ upper _ _ (by rw [List.length_drop]; omega)) ?_
  rintro p mem₂ ⟨rfl, rfl⟩
  refine Ends.bind (appendComp_ends _ work _ _ (by
    rw [List.length_drop, List.length_drop]; omega)) ?_
  rintro p mem₃ ⟨rfl, rfl⟩
  generalize htail : List.drop _ (List.drop _ (List.drop _ block)) = tail
  have htl : 0 < tail.length := by
    rw [← htail, List.length_drop, List.length_drop, List.length_drop]
    omega
  obtain ⟨x, rest, rfl⟩ := List.exists_cons_of_length_pos htl
  refine Ends.get_bind (Ends.store_bind (by simp) ⟨⟨⟩, _, rfl, rest, ?_⟩)
  rw [List.set_append_right _ _ (Nat.le_refl _), Nat.sub_self]
  simp [overlayText]

theorem escape_lit {t : CStr} (h : t.all fun c => !needsEscape c) :
    escape 92 needsEscape t = t :=
  escape_of_plain fun c hc => by simpa using List.all_eq_true.mp h c hc

/-- The kernel's fields are what was put between the commas. -/
theorem fields_overlayText (lower upper work : CStr) :
    fields 92 44 (overlayText lower upper work) =
      [lit "lowerdir=" ++ escape 92 needsEscape lower,
       lit "upperdir=" ++ escape 92 needsEscape upper,
       lit "workdir=" ++ escape 92 needsEscape work] := by
  have hjoin (t : CStr) (ht : t.all fun c => !needsEscape c) (s : CStr) :
      t ++ escape 92 needsEscape s = escape 92 needsEscape (t ++ s) := by
    rw [escape_append, escape_lit ht]
  have htext : overlayText lower upper work =
      escape 92 needsEscape (lit "lowerdir=" ++ lower) ++ 44 ::
        (escape 92 needsEscape (lit "upperdir=" ++ upper) ++ 44 ::
          escape 92 needsEscape (lit "workdir=" ++ work)) := by
    rw [← hjoin _ (by rfl), ← hjoin _ (by rfl), ← hjoin _ (by rfl)]
    show _ ++ (44 :: lit "upperdir=" ++ _) ++ (44 :: lit "workdir=" ++ _) = _
    simp
  rw [htext, fields_escape_sep (by rfl) (by rfl) (by decide),
    fields_escape_sep (by rfl) (by rfl) (by decide), fields_escape (by rfl) (by rfl),
    ← hjoin _ (by rfl), ← hjoin _ (by rfl), ← hjoin _ (by rfl)]

theorem keyValue_append {k : CStr} (h : 61 ∉ k) (v : CStr) : keyValue (k ++ 61 :: v) = (k, v) := by
  have hk : ∀ c ∈ k, decide (c ≠ 61) = true := fun c hc => decide_eq_true fun heq => h (heq ▸ hc)
  unfold keyValue
  rw [List.takeWhile_append_of_pos hk, List.dropWhile_append_of_pos hk]
  simp

/-- What the kernel makes of the options: every string comes back as it was, but the
lower one is cut at its colons. -/
theorem parseOverlay_overlayText (lower upper work : CStr) :
    parseOverlay (overlayText lower upper work) =
      some { lowerdirs := lower.splitOn 58, upperdir := some upper, workdir := some work } := by
  have hlower (c : OverlayConfig) :
      parseOption c (lit "lowerdir=" ++ escape 92 needsEscape lower) =
        some { c with lowerdirs := lower.splitOn 58 } := by
    have hkv := keyValue_append (k := lit "lowerdir") (by decide) (escape 92 needsEscape lower)
    show parseOption c (lit "lowerdir" ++ 61 :: escape 92 needsEscape lower) = _
    unfold parseOption
    rw [hkv, if_neg (by simp), if_pos rfl, items_escape (by rfl) (by rfl)]
  have hupper (c : OverlayConfig) :
      parseOption c (lit "upperdir=" ++ escape 92 needsEscape upper) =
        some { c with upperdir := some upper } := by
    have hkv := keyValue_append (k := lit "upperdir") (by decide) (escape 92 needsEscape upper)
    show parseOption c (lit "upperdir" ++ 61 :: escape 92 needsEscape upper) = _
    unfold parseOption
    rw [hkv, if_neg (by simp), if_neg (show ¬ lit "upperdir" = lit "lowerdir" by decide), if_pos rfl,
      unescape_escape (by rfl)]
  have hwork (c : OverlayConfig) :
      parseOption c (lit "workdir=" ++ escape 92 needsEscape work) =
        some { c with workdir := some work } := by
    have hkv := keyValue_append (k := lit "workdir") (by decide) (escape 92 needsEscape work)
    show parseOption c (lit "workdir" ++ 61 :: escape 92 needsEscape work) = _
    unfold parseOption
    rw [hkv, if_neg (by simp), if_neg (show ¬ lit "workdir" = lit "lowerdir" by decide),
      if_neg (show ¬ lit "workdir" = lit "upperdir" by decide), if_pos rfl,
      unescape_escape (by rfl)]
  unfold parseOverlay
  rw [fields_overlayText]
  simp [hlower, hupper, hwork]

/-- The options are written inside their allocation, and the kernel reads one lower
layer and the three directories out of them. -/
def OptionsSurvive (lower upper work : CString) : Prop :=
  ∀ (fill : Nat → UInt8) (mem : List UInt8),
    Ends (buildOverlayOpts fill lower.1 upper.1 work.1) mem fun _ mem' =>
      (cstring mem').length < mem'.length ∧
      parseOverlay (cstring mem') =
        some { lowerdirs := [lower.1], upperdir := some upper.1, workdir := some work.1 }

theorem not_mem_overlayText {lower upper work : CStr} (hl : 0 ∉ lower) (hu : 0 ∉ upper)
    (hw : 0 ∉ work) : 0 ∉ overlayText lower upper work := by
  have hcomp : ∀ (pfx s : CStr), 0 ∉ pfx → 0 ∉ s → 0 ∉ pfx ++ escape 92 needsEscape s := by
    intro pfx s hpfx hs hmem
    rcases List.mem_append.mp hmem with hmem | hmem
    · exact hpfx hmem
    · rcases mem_escape hmem with heq | hmem
      · exact absurd heq (by decide)
      · exact hs hmem
  intro hmem
  rcases List.mem_append.mp hmem with hmem | hmem
  · rcases List.mem_append.mp hmem with hmem | hmem
    · exact hcomp _ _ (by decide) hl hmem
    · exact hcomp _ _ (by decide) hu hmem
  · exact hcomp _ _ (by decide) hw hmem

theorem optionsSurvive_iff (lower upper work : CString) :
    OptionsSurvive lower upper work ↔ 58 ∉ lower.1 := by
  have hnul := not_mem_overlayText lower.2 upper.2 work.2
  constructor
  · intro h
    obtain ⟨_, mem', hrun, -, hparse⟩ := h (fun _ => 0) []
    obtain ⟨rest, hmem⟩ := (buildOverlayOpts_ends _ lower.1 upper.1 work.1 []).of_run hrun
    rw [hmem, cstring_append hnul, parseOverlay_overlayText] at hparse
    injection hparse with hconfig
    injection hconfig with hlower
    exact splitOn_eq_singleton_iff.mp hlower
  · intro h fill mem
    refine (buildOverlayOpts_ends fill lower.1 upper.1 work.1 mem).mono ?_
    rintro - mem' ⟨rest, rfl⟩
    rw [cstring_append hnul, parseOverlay_overlayText, splitOn_eq_singleton_iff.mpr h]
    exact ⟨by simp, rfl⟩

/-- A colon in the lower directory makes two layers of it. -/
theorem colon_makes_layers :
    parseOverlay (overlayText (lit "/a:b") (lit "/u") (lit "/w")) =
        some { lowerdirs := [lit "/a", lit "b"], upperdir := some (lit "/u"),
               workdir := some (lit "/w") } ∧
      ¬ ∀ lower upper work : CString, OptionsSurvive lower upper work := by
  refine ⟨?_, fun h => ?_⟩
  · rw [parseOverlay_overlayText]
    rfl
  · have hcolon := h ⟨lit "/a:b", by decide⟩ ⟨lit "/u", by decide⟩ ⟨lit "/w", by decide⟩
    exact (optionsSurvive_iff _ _ _).mp hcolon (by decide)

end Cage.Sandbox
