import Cage.Lib.Checked
import Cage.Core.ChildCorrect
import Cage.Util.Mem

/-!
What a re-entry takes over from the instance, read by read:
`env_read_pid_environ` and `env_inherit_gui` of `src/util/env.c` on the buffer of
`src/util/io_read.c`. A pointer into the buffer is the list of the bytes from
there to the end of what may be read.
-/

namespace Cage.Core

open Lib.Checked Util

/-- `CHUNK`. -/
def readChunk : Nat := 4096

/-- What one `read` of `CHUNK` bytes gives. -/
abbrev Chunk := { bs : List UInt8 // bs.length ≤ readChunk }

/-- The rounds of `read_loop` without a cap; the last `read` gives nothing, or fails. -/
def readAll (failed : Bool) : List Chunk → Exec Buf Int
  | [] => do
      let _ ← bufGrow readChunk
      pure (if failed then -1 else 0)
  | bs :: rest => do
      let _ ← bufGrow readChunk
      let b ← get
      if b.data.length + bs.1.length ≤ b.cap then
        set { b with data := b.data ++ bs.1 }
      else
        fault .bounds
      readAll failed rest

/-- `env_read_pid_environ`: the file is opened, and read in chunks. -/
def envReadPidEnviron (opened failed : Bool) (chunks : List Chunk) :
    Exec Buf (Option (List UInt8)) := do
  if !opened then
    pure none
  else if (← readAll failed chunks) ≠ 0 then
    pure none
  else do
    let blob ← bufTerminate
    pure (some blob)

/-- `strlen`. -/
def strlenFrom : List UInt8 → Exec EnvMap Nat
  | [] => fault .bounds
  | c :: p =>
      if c = 0 then pure 0
      else do
        let n ← strlenFrom p
        pure (n + 1)

/-- `strchr`: how far off the first `ch` of the string is. -/
def strchrFrom (ch : UInt8) : List UInt8 → Exec EnvMap (Option Nat)
  | [] => fault .bounds
  | c :: p =>
      if c = ch then pure (some 0)
      else if c = 0 then pure none
      else do
        let r ← strchrFrom ch p
        pure (r.map (· + 1))

/-- `env_map_ensure` on the map of the run. -/
def ensureFrom (key v : CStr) : Exec EnvMap Unit := do
  match envMapEnsure true (← get) key (some v) with
  | none => fault .fuel
  | some m => set m

/-- The body of the loop of `env_inherit_gui` before the cursor moves. -/
def inheritEntry (p : List UInt8) : Exec EnvMap Unit := do
  match ← strchrFrom equals p with
  | none => pure ()
  | some klen =>
    if klen < keyMax then
      if keyIsGui (p.take klen) then do
        let n ← strlenFrom (p.drop (klen + 1))
        ensureFrom (p.take klen) ((p.drop (klen + 1)).take n)
      else
        pure ()
    else
      pure ()

def inheritLoop : Nat → List UInt8 → Exec EnvMap Unit
  | 0, _ => fault .fuel
  | fuel + 1, p => do
      let c ← load p 0
      if c = 0 then
        pure ()
      else do
        inheritEntry p
        let n ← strlenFrom p
        inheritLoop fuel (p.drop (n + 1))

/-- `env_inherit_gui`, with a round for every byte at the most. -/
def inheritGuiFrom (blob : Option (List UInt8)) : Exec EnvMap Unit :=
  match blob with
  | none => pure ()
  | some blob => inheritLoop (blob.length + 1) blob

/-- The entries between the NULs of a content. -/
def environEntries (content : List UInt8) : List CStr := content.splitOn 0

/-- The GUI variables that are missing in `f` are taken from the entries, each from
the first that gives it a value. -/
def takenOver (f : CStr → Option CStr) (entries : List CStr) : CStr → Option CStr := fun x =>
  (f x).or (entries.findSome? (inheritedFrom x))

/-- Reading the environment of a process takes over what the entries of its content
say, and reads no byte but the content and its terminator. -/
def InheritsContent (m : EnvMap) (f : CStr → Option CStr) (chunks : List Chunk) : Prop :=
  Ends (envReadPidEnviron true false chunks) Buf.init fun blob _ =>
    Ends (inheritGuiFrom blob) m fun _ m' =>
      m'.Holds (takenOver f (environEntries (chunks.map Subtype.val).flatten))

theorem readAll_ends (failed : Bool) (chunks : List Chunk) (b : Buf) :
    Ends (readAll failed chunks) b fun r b' =>
      r = (if failed then -1 else 0) ∧
        b'.data = b.data ++ (chunks.map Subtype.val).flatten := by
  induction chunks generalizing b with
  | nil =>
    refine Ends.bind (bufGrow_spec readChunk b) ?_
    rintro - b₁ ⟨-, hdata, -⟩
    exact Ends.pure ⟨rfl, by simp [hdata]⟩
  | cons bs rest ih =>
    refine Ends.bind (bufGrow_spec readChunk b) ?_
    rintro - b₁ ⟨-, hdata, hcap⟩
    have hfits : b₁.data.length + bs.1.length ≤ b₁.cap := by
      rw [hdata]
      exact Nat.le_trans (Nat.add_le_add_left bs.2 _) hcap
    refine Ends.get_bind ?_
    rw [if_pos hfits]
    refine Ends.set_bind ((ih _).mono ?_)
    rintro r b₂ ⟨hr, hdata₂⟩
    exact ⟨hr, by simp [hdata₂, hdata]⟩

/-- The buffer holds the content and one terminator. -/
theorem envReadPidEnviron_ends (chunks : List Chunk) :
    Ends (envReadPidEnviron true false chunks) Buf.init fun blob _ =>
      blob = some ((chunks.map Subtype.val).flatten ++ [0]) := by
  refine Ends.bind (readAll_ends false chunks Buf.init) ?_
  rintro r b ⟨rfl, hdata⟩
  refine Ends.bind (bufTerminate_spec b) ?_
  rintro blob b' rfl
  exact Ends.pure (by rw [hdata]; rfl)

section

variable {m : EnvMap} {f : CStr → Option CStr}

theorem strlenFrom_ends {s : CStr} (hs : 0 ∉ s) (r : List UInt8) :
    Ends (strlenFrom (s ++ 0 :: r)) m fun n m' => n = s.length ∧ m' = m := by
  induction s with
  | nil => exact Ends.pure ⟨rfl, rfl⟩
  | cons c s ih =>
    rw [List.mem_cons, not_or] at hs
    unfold strlenFrom
    rw [List.cons_append]
    dsimp only
    rw [if_neg (Ne.symm hs.1)]
    refine Ends.bind (ih hs.2) ?_
    rintro n m' ⟨rfl, rfl⟩
    exact Ends.pure ⟨rfl, rfl⟩

theorem strchrFrom_found {ch : UInt8} {a : CStr} (h0 : 0 ∉ a) (hch : ch ∉ a) (r : List UInt8) :
    Ends (strchrFrom ch (a ++ ch :: r)) m fun n m' => n = some a.length ∧ m' = m := by
  induction a with
  | nil =>
    unfold strchrFrom
    rw [List.nil_append]
    dsimp only
    rw [if_pos rfl]
    exact Ends.pure ⟨rfl, rfl⟩
  | cons c a ih =>
    rw [List.mem_cons, not_or] at h0 hch
    unfold strchrFrom
    rw [List.cons_append]
    dsimp only
    rw [if_neg (Ne.symm hch.1), if_neg (Ne.symm h0.1)]
    refine Ends.bind (ih h0.2 hch.2) ?_
    rintro n m' ⟨rfl, rfl⟩
    exact Ends.pure ⟨rfl, rfl⟩

theorem strchrFrom_absent {ch : UInt8} {s : CStr} (h0 : 0 ∉ s) (hch : ch ∉ s) (hne : ch ≠ 0)
    (r : List UInt8) :
    Ends (strchrFrom ch (s ++ 0 :: r)) m fun n m' => n = none ∧ m' = m := by
  induction s with
  | nil =>
    unfold strchrFrom
    rw [List.nil_append]
    dsimp only
    rw [if_neg (Ne.symm hne), if_pos rfl]
    exact Ends.pure ⟨rfl, rfl⟩
  | cons c s ih =>
    rw [List.mem_cons, not_or] at h0 hch
    unfold strchrFrom
    rw [List.cons_append]
    dsimp only
    rw [if_neg (Ne.symm hch.1), if_neg (Ne.symm h0.1)]
    refine Ends.bind (ih h0.2 hch.2) ?_
    rintro n m' ⟨rfl, rfl⟩
    exact Ends.pure ⟨rfl, rfl⟩

theorem inheritEach_cons (e : CStr) (es : List CStr) :
    inheritEach true m (e :: es) = (inheritEach true m [e]).bind fun m => inheritEach true m es := by
  simp only [inheritEach]
  cases strchr e equals with
  | none => rfl
  | some rest =>
    dsimp only
    split
    · cases envMapEnsure true m (beforeRest e rest) (some rest.tail) <;> rfl
    · rfl

/-- An entry in memory does what the entry does. -/
theorem inheritEntry_ends (hm : m.Holds f) {e : CStr} (he : 0 ∉ e) (r : List UInt8) :
    Ends (inheritEntry (e ++ 0 :: r)) m fun _ m' => inheritEach true m [e] = some m' := by
  unfold inheritEntry inheritEach
  by_cases heq : equals ∈ e
  · obtain ⟨a, v, rfl, ha⟩ := List.eq_append_cons_of_mem heq
    have h0a : 0 ∉ a := fun h => he (List.mem_append_left _ h)
    have h0v : 0 ∉ v := fun h => he (List.mem_append_right _ (List.mem_cons_of_mem _ h))
    have hmem : a ++ equals :: v ++ 0 :: r = a ++ equals :: (v ++ 0 :: r) := by simp
    have htake : (a ++ equals :: (v ++ 0 :: r)).take a.length = a := List.take_left
    have hdrop : (a ++ equals :: (v ++ 0 :: r)).drop (a.length + 1) = v ++ 0 :: r := by
      rw [← List.drop_drop, List.drop_left]
      rfl
    rw [hmem, strchr_append ha]
    refine Ends.bind (strchrFrom_found h0a ha _) ?_
    rintro n m₁ ⟨rfl, rfl⟩
    dsimp only
    rw [htake, hdrop, beforeRest_append, List.length_append, Nat.add_sub_cancel, List.tail_cons]
    by_cases hlen : a.length < keyMax
    · by_cases hgui : keyIsGui a = true
      · rw [if_pos hlen, if_pos hgui, if_pos ⟨hlen, hgui⟩]
        refine Ends.bind (strlenFrom_ends h0v r) ?_
        rintro n m₂ ⟨rfl, rfl⟩
        rw [List.take_left]
        obtain ⟨m', hensure, -⟩ := envMapEnsure_holds hm a (some v)
        unfold ensureFrom
        refine Ends.get_bind ?_
        rw [hensure]
        exact ⟨⟨⟩, m', rfl, rfl⟩
      · rw [if_pos hlen, if_neg hgui, if_neg fun h => hgui h.2]
        exact Ends.pure rfl
    · rw [if_neg hlen, if_neg fun h => hlen h.1]
      exact Ends.pure rfl
  · refine Ends.bind (strchrFrom_absent he heq (by decide) r) ?_
    rintro n m₁ ⟨rfl, rfl⟩
    rw [strchr_none heq]
    exact Ends.pure rfl

theorem environEntries_single {e : CStr} (h : 0 ∉ e) : environEntries e = [e] :=
  List.splitOn_eq_singleton h

theorem environEntries_cons {e : CStr} (h : 0 ∉ e) (rest : List UInt8) :
    environEntries (e ++ 0 :: rest) = e :: environEntries rest :=
  List.splitOn_append_cons_self_of_not_mem h rest

theorem load_head (c : UInt8) (p : List UInt8) :
    Ends (load (c :: p) 0) m fun x m' => x = c ∧ m' = m :=
  Ends.load rfl ⟨rfl, rfl⟩

theorem inheritLoop_succ (fuel : Nat) (p : List UInt8) :
    inheritLoop (fuel + 1) p = (load p 0 >>= fun c => if c = 0 then pure () else
      inheritEntry p >>= fun _ => strlenFrom p >>= fun n => inheritLoop fuel (p.drop (n + 1))) :=
  rfl

theorem drop_entry (e r : List UInt8) : (e ++ 0 :: r).drop (e.length + 1) = r := by
  rw [← List.drop_drop, List.drop_left]
  rfl

theorem head_entry {e : CStr} (he : 0 ∉ e) (hne : e ≠ []) (r : List UInt8) :
    Ends (load (e ++ 0 :: r) 0) m fun c m' => c ≠ 0 ∧ m' = m := by
  obtain ⟨c, e, rfl⟩ := List.exists_cons_of_ne_nil hne
  rw [List.mem_cons, not_or] at he
  exact (load_head c _).mono fun x m' hx => ⟨hx.1 ▸ Ne.symm he.1, hx.2⟩

theorem inheritEach_one (hm : m.Holds f) (e : CStr) :
    ∃ m', inheritEach true m [e] = some m' ∧ ∃ f', m'.Holds f' := by
  obtain ⟨m', hrun, hholds⟩ := inheritEach_holds hm [e]
  exact ⟨m', hrun, _, hholds⟩

/-- One round of the loop, at an entry that is not empty. -/
theorem inheritLoop_round (hm : m.Holds f) {fuel : Nat} {e : CStr} (he : 0 ∉ e) (hne : e ≠ [])
    (r : List UInt8) {q : Unit → EnvMap → Prop} {m' : EnvMap}
    (hentry : inheritEach true m [e] = some m') :
    Ends (inheritLoop (fuel + 1) (e ++ 0 :: r)) m q ↔ Ends (inheritLoop fuel r) m' q := by
  rw [inheritLoop_succ]
  constructor
  · intro h
    obtain ⟨c, m₁, ⟨hc, rfl⟩, h₁⟩ := Ends.of_bind h (head_entry he hne r)
    rw [if_neg hc] at h₁
    obtain ⟨_, m₂, hm₂, h₂⟩ := Ends.of_bind h₁ (inheritEntry_ends hm he r)
    obtain ⟨n, m₃, ⟨rfl, rfl⟩, h₃⟩ := Ends.of_bind h₂ (strlenFrom_ends he r)
    obtain rfl := Option.some.inj (hentry.symm.trans hm₂)
    rwa [drop_entry] at h₃
  · intro h
    refine Ends.bind (head_entry he hne r) ?_
    rintro c m₁ ⟨hc, rfl⟩
    rw [if_neg hc]
    refine Ends.bind (inheritEntry_ends hm he r) fun _ m₂ hm₂ => ?_
    obtain rfl := Option.some.inj (hentry.symm.trans hm₂)
    refine Ends.bind (strlenFrom_ends he r) ?_
    rintro n m₃ ⟨rfl, rfl⟩
    rwa [drop_entry]

/-- If some entry is empty, the scan takes over those in front of it and ends there,
as if it worked on strings. -/
theorem inheritLoop_stops (hm : m.Holds f) {fuel : Nat} {rest : List UInt8}
    (hfuel : rest.length < fuel) (hempty : [] ∈ environEntries rest) :
    Ends (inheritLoop fuel (rest ++ [0])) m fun _ m' => envInheritGui true m rest = some m' := by
  induction fuel generalizing m f rest with
  | zero => exact absurd hfuel (Nat.not_lt_zero _)
  | succ fuel ih =>
    have hstop : ∀ p, blobStrings rest = [] → Ends (inheritLoop (fuel + 1) (0 :: p)) m fun _ m' =>
        envInheritGui true m rest = some m' := by
      intro p hseen
      rw [inheritLoop_succ]
      refine Ends.bind (load_head 0 p) ?_
      rintro c m' ⟨rfl, rfl⟩
      unfold envInheritGui
      rw [if_pos rfl, hseen]
      exact Ends.pure rfl
    by_cases hnul : 0 ∈ rest
    · obtain ⟨e, r, rfl, he⟩ := List.eq_append_cons_of_mem hnul
      by_cases hne : e = []
      · subst hne
        refine hstop _ ?_
        show (environEntries ([] ++ 0 :: r)).takeWhile _ = []
        rw [environEntries_cons he]
        rfl
      · have hseen : blobStrings (e ++ 0 :: r) = e :: blobStrings r := by
          show (environEntries (e ++ 0 :: r)).takeWhile _ = _
          rw [environEntries_cons he, List.takeWhile_cons_of_pos (by simpa using hne)]
          rfl
        rw [environEntries_cons he, List.mem_cons, or_iff_right (Ne.symm hne)] at hempty
        obtain ⟨m', hentry, f', hm'⟩ := inheritEach_one hm e
        have hlen : r.length < fuel := by
          simp only [List.length_append, List.length_cons] at hfuel
          omega
        rw [List.append_assoc, List.cons_append, inheritLoop_round hm he hne _ hentry]
        refine (ih hm' hlen hempty).mono fun _ m'' hrest => ?_
        unfold envInheritGui at hrest ⊢
        rw [hseen, inheritEach_cons, hentry]
        exact hrest
    · rw [environEntries_single hnul, List.mem_singleton] at hempty
      subst hempty
      exact hstop [] rfl

/-- If none is, it goes on behind the terminator. -/
theorem inheritLoop_overruns (hm : m.Holds f) {fuel : Nat} {rest : List UInt8}
    (hfull : [] ∉ environEntries rest) {q : Unit → EnvMap → Prop} :
    ¬ Ends (inheritLoop fuel (rest ++ [0])) m q := by
  induction fuel generalizing m f rest with
  | zero =>
    rintro ⟨_, _, hrun, -⟩
    cases hrun
  | succ fuel ih =>
    intro hends
    by_cases hnul : 0 ∈ rest
    · obtain ⟨e, r, rfl, he⟩ := List.eq_append_cons_of_mem hnul
      rw [environEntries_cons he, List.mem_cons, not_or] at hfull
      rw [List.append_assoc] at hends
      obtain ⟨m', hentry, f', hm'⟩ := inheritEach_one hm e
      rw [List.cons_append, inheritLoop_round hm he (Ne.symm hfull.1) _ hentry] at hends
      exact ih hm' hfull.2 hends
    · rw [environEntries_single hnul, List.mem_singleton] at hfull
      obtain ⟨m', hentry, -⟩ := inheritEach_one hm rest
      rw [inheritLoop_round hm hnul (Ne.symm hfull) [] hentry] at hends
      obtain ⟨_, _, hrun, -⟩ := hends
      cases fuel <;> cases hrun

theorem holds_unique {g : CStr → Option CStr} (hf : m.Holds f) (hg : m.Holds g) :
    f = g := by
  funext k
  exact Option.some.inj ((envMapGet_holds hf k).symm.trans (envMapGet_holds hg k))

/-- Every variable that is missing and that some entry gives a value is given one by
an entry in front of the first empty one. -/
def NoneBehind (f : CStr → Option CStr) (content : List UInt8) : Prop :=
  ∀ x, f x = none → (environEntries content).findSome? (inheritedFrom x) ≠ none →
    (blobStrings content).findSome? (inheritedFrom x) ≠ none

theorem findSome_blobStrings {content : List UInt8} {x v : CStr}
    (h : (blobStrings content).findSome? (inheritedFrom x) = some v) :
    (environEntries content).findSome? (inheritedFrom x) = some v := by
  have hsplit : environEntries content =
      blobStrings content ++ (environEntries content).dropWhile (· ≠ []) :=
    List.takeWhile_append_dropWhile.symm
  rw [hsplit, List.findSome?_append, h]
  rfl

theorem takenOver_iff {content : List UInt8} :
    takenOver f (blobStrings content) = takenOver f (environEntries content) ↔
      NoneBehind f content := by
  constructor
  · intro h x hmissing hgiven hunseen
    have hx := congrFun h x
    unfold takenOver at hx
    rw [hmissing, hunseen] at hx
    exact hgiven hx.symm
  · intro h
    funext x
    unfold takenOver
    cases hmissing : f x with
    | some v => rfl
    | none =>
      cases hseen : (blobStrings content).findSome? (inheritedFrom x) with
      | some v => rw [findSome_blobStrings hseen]
      | none =>
        have hnone : (environEntries content).findSome? (inheritedFrom x) = none := by
          by_contra hgiven
          exact h x hmissing hgiven hseen
        rw [hnone]

/-- What the scan leaves holds what the strings give. -/
theorem holds_of_envInheritGui (hm : m.Holds f) {content : List UInt8} {m' : EnvMap}
    (h : envInheritGui true m content = some m') : m'.Holds (takenOver f (blobStrings content)) := by
  obtain ⟨m'', hrun, hholds⟩ := inheritEach_holds hm (blobStrings content)
  obtain rfl := Option.some.inj (hrun.symm.trans h)
  exact hholds

/-- The variables come over as the content says, with no read behind its terminator,
exactly if some entry is empty (a final NUL makes one) and none behind the first of
these gives a variable that is still missing. -/
theorem inheritsContent_iff (hm : m.Holds f) (chunks : List Chunk) :
    InheritsContent m f chunks ↔
      [] ∈ environEntries (chunks.map Subtype.val).flatten ∧
        NoneBehind f (chunks.map Subtype.val).flatten := by
  unfold InheritsContent
  generalize hcontent : (chunks.map Subtype.val).flatten = content
  have hread := envReadPidEnviron_ends chunks
  rw [hcontent] at hread
  have hfuel : content.length < (content ++ [0]).length + 1 := by
    rw [List.length_append]
    omega
  constructor
  · rintro h
    obtain ⟨blob, b, hrun, hends⟩ := h
    obtain rfl := hread.of_run hrun
    have hempty : [] ∈ environEntries content := by
      by_contra hfull
      exact inheritLoop_overruns hm hfull hends
    have hstops := inheritLoop_stops hm hfuel hempty
    obtain ⟨_, m', -, hexact, hseen⟩ := Ends.and hends hstops
    exact ⟨hempty, takenOver_iff.mp (holds_unique (holds_of_envInheritGui hm hseen) hexact)⟩
  · rintro ⟨hempty, hnone⟩
    refine hread.mono ?_
    rintro blob b rfl
    refine (inheritLoop_stops hm hfuel hempty).mono ?_
    intro _ m' hseen
    exact takenOver_iff.mpr hnone ▸ holds_of_envInheritGui hm hseen

end

/-- `DISPLAY=:1` and its NUL come over. -/
theorem inheritsContent_display :
    ∃ m, InheritsContent m (fun _ => none) [⟨lit "DISPLAY=:1" ++ [0], by decide⟩] := by
  obtain ⟨m, -, hm⟩ := envMapInit_holds
  refine ⟨m, (inheritsContent_iff hm _).mpr ⟨by decide, fun x _ hgiven => ?_⟩⟩
  have hentries : environEntries (lit "DISPLAY=:1" ++ [0]) = [lit "DISPLAY=:1", []] := by decide
  have hseen : blobStrings (lit "DISPLAY=:1" ++ [0]) = [lit "DISPLAY=:1"] := by decide
  simp only [List.map_cons, List.map_nil, List.flatten_cons, List.flatten_nil,
    List.append_nil] at hgiven ⊢
  rw [hentries] at hgiven
  rw [hseen]
  simpa [inheritedFrom] using hgiven

/-- A content without a final NUL: the byte behind the terminator is read. -/
theorem inherit_overruns :
    (∀ m f, m.Holds f → ¬ ∃ r, inheritGuiFrom (some (lit "DISPLAY=:1" ++ [0])) m = .ok r) ∧
    ¬ ∀ (m : EnvMap) (f : CStr → Option CStr) (chunks : List Chunk), m.Holds f →
      InheritsContent m f chunks := by
  have hover : ∀ m f, m.Holds f → ∀ q : Unit → EnvMap → Prop,
      ¬ Ends (inheritGuiFrom (some (lit "DISPLAY=:1" ++ [0]))) m q :=
    fun m f hm q => inheritLoop_overruns hm (by decide)
  refine ⟨fun m f hm ⟨r, hr⟩ => ?_, fun h => ?_⟩
  · exact hover m f hm (fun _ _ => True) ⟨r.1, r.2, hr, trivial⟩
  · obtain ⟨m, -, hm⟩ := envMapInit_holds
    obtain ⟨blob, b, hrun, hends⟩ := h m _ [⟨lit "DISPLAY=:1", by decide⟩] hm
    obtain rfl := (envReadPidEnviron_ends _).of_run hrun
    exact hover m _ hm _ hends

end Cage.Core
