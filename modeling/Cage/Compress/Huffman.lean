import Cage.Compress.BitRead
import Cage.Lib.Canonical

/-!
The Huffman tables of `src/compress/bitread.c`: `huff_build` fills the tables
of a canonical code from its lengths, and `huff_decode` walks them one bit at
a time.
-/

namespace Cage.Compress

open Lib.Bits Lib.Checked Lib.Canonical

variable {σ : Type}

/-- `struct huff`, with the 16 entries a length and the 320 symbols. -/
structure Huff where
  firstCode : List Nat
  firstIdx : List Nat
  count : List Nat
  nsym : Nat
  symbols : List Nat
  deriving DecidableEq, Repr

/-- The tables after the `memset` of `huff_build`. -/
def Huff.zero (nsym : Nat) : Huff where
  firstCode := List.replicate 16 0
  firstIdx := List.replicate 16 0
  count := List.replicate 16 0
  nsym := nsym
  symbols := List.replicate 320 0

/-- The new `h->count`. -/
def huffCount (count lengths : List Nat) (nsym : Nat) : Exec σ (List Nat) :=
  loopUp (fun i count => do
    let l ← load lengths i
    if l > 0 ∧ l ≤ 15 then do
      let c ← load count l
      store count l (c + 1)
    else
      pure count) nsym 0 count

/-- The new `h->first_code`. -/
def huffCodes (firstCode count : List Nat) : Exec σ (List Nat) := do
  let (firstCode, _) ← loopUp (fun b (firstCode, code) => do
    let firstCode ← store firstCode b code
    let c ← load count b
    pure (firstCode, (code + c) <<< 1)) 15 1 (firstCode, 0)
  pure firstCode

/-- The new `h->first_idx`, and `slot`, after the first loop of `huff_place`. -/
def huffSlots (firstIdx count : List Nat) : Exec σ (List Nat × List Nat) := do
  let slot ← store (List.replicate 16 0) 0 0
  let firstIdx ← store firstIdx 0 0
  loopUp (fun b (firstIdx, slot) => do
    let prev ← load firstIdx (b - 1)
    let c ← load count (b - 1)
    let firstIdx ← store firstIdx b (prev + c)
    let idx ← load firstIdx b
    let slot ← store slot b idx
    pure (firstIdx, slot)) 15 1 (firstIdx, slot)

/-- The new `h->first_idx` and `h->symbols`. -/
def huffPlace (firstIdx count symbols lengths : List Nat) (nsym : Nat) :
    Exec σ (List Nat × List Nat) := do
  let (firstIdx, slot) ← huffSlots firstIdx count
  let (symbols, _) ← loopUp (fun i (symbols, slot) => do
    let l ← load lengths i
    if l > 0 ∧ l ≤ 15 then do
      let k ← load slot l
      let symbols ← store symbols k i
      let slot ← store slot l (k + 1)
      pure (symbols, slot)
    else
      pure (symbols, slot)) nsym 0 (symbols, slot)
  pure (firstIdx, symbols)

def huffBuild (lengths : List Nat) (nsym : Nat) : Exec σ Huff := do
  let h := Huff.zero nsym
  let count ← huffCount h.count lengths nsym
  let firstCode ← huffCodes h.firstCode count
  let (firstIdx, symbols) ← huffPlace h.firstIdx count h.symbols lengths nsym
  pure { h with firstCode := firstCode, firstIdx := firstIdx, count := count, symbols := symbols }

/-- The walk of `huff_decode` from length `b` on, with `k` lengths left. -/
def huffDecodeLoop (h : Huff) : Nat → Nat → Nat → Exec Br Int
  | 0, _, _ => pure (-1)
  | k + 1, b, code => do
      let bit ← brBits 1
      if bit < 0 then
        pure (-1)
      else do
        let code := (code <<< 1) ||| bit.toNat
        let fc ← load h.firstCode b
        if code < fc then
          huffDecodeLoop h k (b + 1) code
        else do
          let c ← load h.count b
          if code < fc + c then do
            let idx ← load h.firstIdx b
            let sym ← load h.symbols (idx + (code - fc))
            pure sym
          else
            huffDecodeLoop h k (b + 1) code

def huffDecode (h : Huff) : Exec Br Int := huffDecodeLoop h 15 1 0

/-- The tables hold the canonical code of `lens`. -/
structure Huff.Holds (h : Huff) (lens : List Nat) : Prop where
  codes : ∀ b, 1 ≤ b → b ≤ 15 → h.firstCode[b]? = some (Lib.Canonical.firstCode lens b)
  counts : ∀ b, 1 ≤ b → b ≤ 15 → h.count[b]? = some (lens.count b)
  places : ∀ b, 1 ≤ b → b ≤ 15 → h.firstIdx[b]? = some (firstIndex lens b)
  syms : ∀ s, s < lens.length → 1 ≤ lens.getD s 0 → lens.getD s 0 ≤ 15 →
    h.symbols[firstIndex lens (lens.getD s 0) + rank lens s]? = some s

private theorem take_succ_count (lens : List Nat) (i l : Nat) (hi : i < lens.length) :
    (lens.take (i + 1)).count l =
      (lens.take i).count l + if lens.getD i 0 = l then 1 else 0 := by
  rw [List.take_add_one, List.count_append, List.getElem?_eq_getElem hi,
    List.getD_eq_getElem?_getD, List.getElem?_eq_getElem hi]
  simp [List.count_singleton]

private theorem load_take {lengths : List Nat} {nsym i : Nat} (hlen : nsym ≤ lengths.length)
    (hi : i < nsym) :
    lengths[i]? = some ((lengths.take nsym).getD i 0) ∧ i < (lengths.take nsym).length := by
  have h : i < lengths.length := by omega
  simp [List.getD_eq_getElem?_getD, h, hi]

theorem huffCount_spec (lengths : List Nat) (nsym : Nat) (s : σ)
    (hlen : nsym ≤ lengths.length) :
    Ends (huffCount (List.replicate 16 0) lengths nsym) s fun count s' => s' = s ∧
      count[0]? = some 0 ∧
      ∀ b, 1 ≤ b → b ≤ 15 → count[b]? = some ((lengths.take nsym).count b) := by
  refine (Ends.loopUp (fun i count s' => s' = s ∧ count.length = 16 ∧ count[0]? = some 0 ∧
    ∀ b, 1 ≤ b → b ≤ 15 → count[b]? = some (((lengths.take nsym).take i).count b)) ?_ ?_).mono ?_
  · rintro i count s' - hi ⟨rfl, hlen', hzero, hcount⟩
    obtain ⟨hload, hi'⟩ := load_take (i := i) hlen (by omega)
    refine Ends.load_bind hload ?_
    generalize hl : (lengths.take nsym).getD i 0 = l
    by_cases hcase : l > 0 ∧ l ≤ 15
    · rw [if_pos hcase]
      refine Ends.load_bind (hcount l hcase.1 hcase.2) (Ends.store (by omega) ?_)
      refine ⟨rfl, by simpa using hlen', ?_, ?_⟩
      · rw [List.getElem?_set_ne (by omega)]
        exact hzero
      · intro b hb hb'
        rw [take_succ_count _ _ _ hi', hl, List.getElem?_set]
        by_cases hbl : l = b
        · subst hbl
          rw [if_pos rfl, if_pos (by omega), if_pos rfl]
        · rw [if_neg hbl, if_neg hbl]
          exact hcount b hb hb'
    · rw [if_neg hcase]
      refine Ends.pure ⟨rfl, hlen', hzero, ?_⟩
      intro b hb hb'
      rw [take_succ_count _ _ _ hi', hl, if_neg (by omega)]
      exact hcount b hb hb'
  · refine ⟨rfl, by simp, by simp, ?_⟩
    intro b hb hb'
    rw [List.getElem?_replicate, if_pos (by omega)]
    simp
  · rintro count s' ⟨hs, -, hzero, hcount⟩
    refine ⟨hs, hzero, ?_⟩
    intro b hb hb'
    rw [hcount b hb hb', List.take_of_length_le]
    simp

theorem huffCodes_spec (count lens : List Nat) (s : σ)
    (hcount : ∀ b, 1 ≤ b → b ≤ 15 → count[b]? = some (lens.count b)) :
    Ends (huffCodes (List.replicate 16 0) count) s fun codes s' => s' = s ∧
      ∀ b, 1 ≤ b → b ≤ 15 → codes[b]? = some (firstCode lens b) := by
  refine Ends.bind (Ends.loopUp (fun i (r : List Nat × Nat) s' => s' = s ∧
    r.1.length = 16 ∧ r.2 = firstCode lens i ∧
    ∀ b, 1 ≤ b → b < i → r.1[b]? = some (firstCode lens b)) ?_ ?_) ?_
  · rintro i ⟨codes, code⟩ s' hi hi' ⟨rfl, hlen, rfl, hold⟩
    simp only at hlen hold
    refine Ends.store_bind (by omega) (Ends.load_bind (hcount i hi (by omega)) (Ends.pure ?_))
    refine ⟨rfl, by simpa using hlen, ?_, ?_⟩
    · rw [firstCode_succ lens i hi, Nat.shiftLeft_eq]
      omega
    · intro b hb hb'
      rw [List.getElem?_set]
      by_cases hbi : i = b
      · subst hbi
        rw [if_pos rfl, if_pos (by omega)]
      · rw [if_neg hbi]
        exact hold b hb (by omega)
  · exact ⟨rfl, by simp, rfl, fun b hb hb' => by omega⟩
  · rintro ⟨codes, code⟩ s' ⟨rfl, -, -, hold⟩
    exact Ends.pure ⟨rfl, fun b hb hb' => hold b hb (by omega)⟩

theorem huffSlots_spec (count lens : List Nat) (s : σ) (hzero : count[0]? = some 0)
    (hcount : ∀ b, 1 ≤ b → b ≤ 15 → count[b]? = some (lens.count b)) :
    Ends (huffSlots (List.replicate 16 0) count) s fun r s' => s' = s ∧ r.2.length = 16 ∧
      ∀ b, 1 ≤ b → b ≤ 15 →
        r.1[b]? = some (firstIndex lens b) ∧ r.2[b]? = some (firstIndex lens b) := by
  refine Ends.store_bind (by simp) (Ends.store_bind (by simp) ?_)
  refine (Ends.loopUp (fun i (r : List Nat × List Nat) s' => s' = s ∧ r.1.length = 16 ∧
    r.2.length = 16 ∧ r.1[0]? = some 0 ∧ ∀ b, 1 ≤ b → b < i →
      r.1[b]? = some (firstIndex lens b) ∧ r.2[b]? = some (firstIndex lens b)) ?_ ?_).mono ?_
  · rintro i ⟨idx, slot⟩ s' hi hi' ⟨rfl, hlen, hlen', hfirst, hold⟩
    simp only at hlen hlen' hfirst hold
    -- entry `b - 1` of both tables, which for `b = 1` is the entry of length 0
    obtain ⟨prev, c, hprev, hc, hsum⟩ : ∃ prev c, idx[i - 1]? = some prev ∧
        count[i - 1]? = some c ∧ prev + c = firstIndex lens i := by
      by_cases h1 : i = 1
      · subst h1
        exact ⟨0, 0, hfirst, hzero, rfl⟩
      · refine ⟨_, _, (hold (i - 1) (by omega) (by omega)).1,
          hcount (i - 1) (by omega) (by omega), ?_⟩
        rw [← firstIndex_succ lens (i - 1) (by omega), Nat.sub_add_cancel hi]
    refine Ends.load_bind hprev (Ends.load_bind hc (Ends.store_bind (by omega) ?_))
    refine Ends.load_bind (List.getElem?_set_self (by omega)) ?_
    refine Ends.store_bind (by omega) (Ends.pure ?_)
    refine ⟨rfl, by simpa using hlen, by simpa using hlen', ?_, ?_⟩
    · simp only
      rw [List.getElem?_set_ne (by omega)]
      exact hfirst
    · intro b hb hb'
      simp only [List.getElem?_set]
      by_cases hbi : i = b
      · subst hbi
        rw [if_pos rfl, if_pos (by omega), if_pos rfl, if_pos (by omega), hsum]
        exact ⟨rfl, rfl⟩
      · rw [if_neg hbi, if_neg hbi]
        exact hold b hb (by omega)
  · exact ⟨rfl, by simp, by simp, by simp, fun b hb hb' => by omega⟩
  · rintro ⟨idx, slot⟩ s' ⟨hs, -, hlen', -, hold⟩
    exact ⟨hs, hlen', fun b hb hb' => hold b hb (by omega)⟩

/-- Symbol `i` goes to the place its length and rank give, and no later symbol
of the vector goes there again. -/
theorem huffPlace_spec (count lengths : List Nat) (nsym : Nat) (s : σ)
    (hlen : nsym ≤ lengths.length) (hsize : nsym ≤ 320) (hzero : count[0]? = some 0)
    (hcount : ∀ b, 1 ≤ b → b ≤ 15 → count[b]? = some ((lengths.take nsym).count b)) :
    Ends (huffPlace (List.replicate 16 0) count (List.replicate 320 0) lengths nsym) s
      fun r s' => s' = s ∧
        (∀ b, 1 ≤ b → b ≤ 15 → r.1[b]? = some (firstIndex (lengths.take nsym) b)) ∧
        ∀ t, t < (lengths.take nsym).length → 1 ≤ (lengths.take nsym).getD t 0 →
          (lengths.take nsym).getD t 0 ≤ 15 →
          r.2[firstIndex (lengths.take nsym) ((lengths.take nsym).getD t 0) +
            rank (lengths.take nsym) t]? = some t := by
  have hload := fun i => load_take (i := i) hlen
  have htotal : (lengths.take nsym).length = nsym := by simpa using hlen
  revert hcount hload htotal
  generalize lengths.take nsym = lens
  intro hcount hload htotal
  refine Ends.bind (huffSlots_spec count lens s hzero hcount) ?_
  rintro ⟨idx, slot⟩ s₁ ⟨rfl, hslen, hslots⟩
  simp only at hslen hslots
  refine Ends.bind (Ends.loopUp (fun i (r : List Nat × List Nat) s' => s' = s₁ ∧
    r.1.length = 320 ∧ r.2.length = 16 ∧
    (∀ b, 1 ≤ b → b ≤ 15 → r.2[b]? = some (firstIndex lens b + (lens.take i).count b)) ∧
    ∀ t, t < i → 1 ≤ lens.getD t 0 → lens.getD t 0 ≤ 15 →
      r.1[firstIndex lens (lens.getD t 0) + rank lens t]? = some t) ?_ ?_) ?_
  · rintro i ⟨syms, slot⟩ s' - hi ⟨rfl, hsyms, hslot, hnext, hold⟩
    simp only at hsyms hslot hnext hold
    obtain ⟨hli, hi'⟩ := hload i (by omega)
    refine Ends.load_bind hli ?_
    by_cases hcase : lens.getD i 0 > 0 ∧ lens.getD i 0 ≤ 15
    · rw [if_pos hcase]
      have hrank : rank lens i < lens.count (lens.getD i 0) := rank_lt lens i hi'
      have hplace : firstIndex lens (lens.getD i 0) + rank lens i < 320 := by
        have h1 := firstIndex_le_length lens (lens.getD i 0)
        rw [firstIndex_succ lens _ hcase.1] at h1
        omega
      have hnext' : slot[lens.getD i 0]? =
          some (firstIndex lens (lens.getD i 0) + rank lens i) := hnext _ hcase.1 hcase.2
      rw [← hsyms] at hplace
      refine Ends.load_bind hnext' (Ends.store_bind hplace
        (Ends.store_bind (by omega) (Ends.pure ?_)))
      refine ⟨rfl, by simpa using hsyms, by simpa using hslot, ?_, ?_⟩
      · intro b hb hb'
        rw [take_succ_count _ _ _ hi', List.getElem?_set]
        by_cases hbl : lens.getD i 0 = b
        · rw [if_pos hbl, if_pos (by omega), if_pos hbl, ← hbl, Nat.add_assoc]
          rfl
        · rw [if_neg hbl, if_neg hbl]
          exact hnext b hb hb'
      · intro t ht hpos hle
        simp only [List.getElem?_set]
        by_cases hti : t = i
        · subst hti
          rw [if_pos rfl, if_pos hplace]
        · rw [if_neg]
          · exact hold t (by omega) hpos hle
          · intro heq
            have ht' : t < lens.length := by omega
            obtain ⟨hl, hr⟩ := place_inj lens _ _ _ _ hcase.1 hpos hrank (rank_lt lens t ht') heq
            exact hti (rank_inj lens t i ht' hi' hl.symm hr.symm)
    · rw [if_neg hcase]
      refine Ends.pure ⟨rfl, hsyms, hslot, ?_, ?_⟩
      · intro b hb hb'
        rw [take_succ_count _ _ _ hi', if_neg (by omega)]
        exact hnext b hb hb'
      · intro t ht hpos hle
        by_cases hti : t = i
        · subst hti
          omega
        · exact hold t (by omega) hpos hle
  · refine ⟨rfl, List.length_replicate, hslen, ?_, fun t ht => by omega⟩
    intro b hb hb'
    simpa using (hslots b hb hb').2
  · rintro ⟨syms, slot⟩ s' ⟨rfl, -, -, -, hold⟩
    refine Ends.pure ⟨rfl, fun b hb hb' => (hslots b hb hb').1, ?_⟩
    intro t ht hpos hle
    exact hold t (by omega) hpos hle

/-- For any vector of lengths that its caller holds, `huff_build` stays inside
its tables and fills them with the canonical code. -/
theorem huffBuild_spec (lengths : List Nat) (nsym : Nat) (s : σ)
    (hlen : nsym ≤ lengths.length) (hsize : nsym ≤ 320) :
    Ends (huffBuild lengths nsym) s fun h s' => s' = s ∧ h.Holds (lengths.take nsym) := by
  refine Ends.bind (huffCount_spec lengths nsym s hlen) ?_
  rintro count s₁ ⟨rfl, hzero, hcount⟩
  refine Ends.bind (huffCodes_spec count (lengths.take nsym) s₁ hcount) ?_
  rintro codes s₂ ⟨rfl, hcodes⟩
  refine Ends.bind (huffPlace_spec count lengths nsym s₂ hlen hsize hzero hcount) ?_
  rintro ⟨idx, syms⟩ s₃ ⟨rfl, hidx, hsyms⟩
  exact Ends.pure ⟨rfl, ⟨hcodes, hcount, hidx, hsyms⟩⟩

/-- What a decoding step leaves: the reader has moved over `w`, which is the
codeword of the symbol returned. -/
def DecodePost (lens : List Nat) (br : Br) (r : Int) (br' : Br) : Prop :=
  br'.Ok ∧ br.Same br' ∧
    ∃ w, br.rest = w ++ br'.rest ∧ (r = -1 ∨ ∃ s : Nat, r = s ∧ Codeword 15 lens s w)

private theorem code_snoc (u : List Bool) (b : Bool) :
    (msb u <<< 1) ||| b.toNat = msb (u ++ [b]) := by
  have hb : b.toNat < 2 ^ 1 := by cases b <;> decide
  rw [← Nat.shiftLeft_add_eq_or_of_lt hb, Nat.shiftLeft_eq, msb, msb, msbFrom_append,
    msbFrom_cons, msbFrom_nil]
  ring

/-- A single bit read, as the walk uses it. -/
theorem brBits_one (br : Br) (h : br.Ok) :
    Ends (brBits 1) br fun r br' => br'.Ok ∧ br.Same br' ∧
      ((∃ b : Bool, br.rest = b :: br'.rest ∧ r = b.toNat) ∨
        (br.rest = [] ∧ r = -1 ∧ br'.rest = [])) := by
  refine (brBits_spec 1 br h (by omega)).mono ?_
  rintro r br' ⟨hok, hsame, ⟨w, hw, hrest, rfl⟩ | ⟨hshort, rfl, hrest⟩⟩
  · obtain ⟨b, rfl⟩ := List.length_eq_one_iff.mp hw
    exact ⟨hok, hsame, Or.inl ⟨b, hrest, by simp [value]⟩⟩
  · have hnil : br.rest = [] := List.eq_nil_of_length_eq_zero (by omega)
    exact ⟨hok, hsame, Or.inr ⟨hnil, rfl, hrest.trans hnil⟩⟩

/-- A word inside the code of its length is the codeword of a symbol, and the
tables name that symbol. -/
theorem Huff.Holds.lookup {h : Huff} {lens : List Nat} (hh : h.Holds lens) (w : List Bool)
    (hpos : 1 ≤ w.length) (hle : w.length ≤ 15)
    (hlow : Lib.Canonical.firstCode lens w.length ≤ msb w)
    (hhigh : msb w < Lib.Canonical.firstCode lens w.length + lens.count w.length) :
    ∃ s, Codeword 15 lens s w ∧
      h.symbols[firstIndex lens w.length +
        (msb w - Lib.Canonical.firstCode lens w.length)]? = some s := by
  obtain ⟨s, hs, hlen, hrank⟩ := exists_rank lens w.length
    (msb w - Lib.Canonical.firstCode lens w.length) (by omega)
  refine ⟨s, Codeword.of_code hs hpos hle hlen hlow hrank, ?_⟩
  have hsym := hh.syms s hs (by omega) (by omega)
  rwa [hlen, hrank] at hsym

/-- After `u` the walk stays in the tables and stops only at a codeword that
begins with `u`. -/
theorem huffDecodeLoop_sound (h : Huff) (lens : List Nat) (hh : h.Holds lens) (k : Nat)
    (u : List Bool) (br : Br) (hbr : br.Ok) (hk : k + u.length = 15) :
    Ends (huffDecodeLoop h k (u.length + 1) (msb u)) br fun r br' =>
      br'.Ok ∧ br.Same br' ∧ ∃ v, br.rest = v ++ br'.rest ∧
        (r = -1 ∨ ∃ s : Nat, r = s ∧ Codeword 15 lens s (u ++ v)) := by
  induction k generalizing u br with
  | zero => exact Ends.pure ⟨hbr, Br.Same.refl br, [], rfl, Or.inl rfl⟩
  | succ k ih =>
    refine Ends.bind (brBits_one br hbr) ?_
    rintro bit br' ⟨hok, hsame, ⟨b, hrest, rfl⟩ | ⟨hnil, rfl, hrest⟩⟩
    · rw [if_neg (by omega)]
      simp only [Int.toNat_natCast, code_snoc]
      have hlen : (u ++ [b]).length = u.length + 1 := by simp
      have hstep : Ends (huffDecodeLoop h k (u.length + 1 + 1) (msb (u ++ [b]))) br'
          fun r br'' => br''.Ok ∧ br.Same br'' ∧ ∃ v, br.rest = v ++ br''.rest ∧
            (r = -1 ∨ ∃ s : Nat, r = s ∧ Codeword 15 lens s (u ++ v)) := by
        rw [← hlen]
        refine (ih (u ++ [b]) br' hok (by omega)).mono ?_
        rintro r br'' ⟨hok', hsame', v, hrest', hcase⟩
        refine ⟨hok', hsame.trans hsame', b :: v, by rw [hrest, hrest']; rfl, ?_⟩
        rwa [List.append_cons u b v]
      refine Ends.load_bind (hh.codes _ (by omega) (by omega)) ?_
      by_cases hlow : msb (u ++ [b]) < Lib.Canonical.firstCode lens (u.length + 1)
      · rwa [if_pos hlow]
      · rw [if_neg hlow]
        refine Ends.load_bind (hh.counts _ (by omega) (by omega)) ?_
        by_cases hhigh : msb (u ++ [b]) <
            Lib.Canonical.firstCode lens (u.length + 1) + lens.count (u.length + 1)
        · rw [if_pos hhigh]
          rw [← hlen] at hlow hhigh ⊢
          obtain ⟨s, hword, hsym⟩ := hh.lookup (u ++ [b]) (by omega) (by omega) (by omega) hhigh
          refine Ends.load_bind (hh.places _ (by omega) (by omega)) (Ends.load_bind hsym ?_)
          exact Ends.pure ⟨hok, hsame, [b], hrest, Or.inr ⟨s, rfl, hword⟩⟩
        · rwa [if_neg hhigh]
    · rw [if_pos (by omega)]
      exact Ends.pure ⟨hok, hsame, [], by rw [hnil, hrest]; rfl, Or.inl rfl⟩

theorem huffDecode_sound (h : Huff) (lens : List Nat) (hh : h.Holds lens) (br : Br)
    (hbr : br.Ok) : Ends (huffDecode h) br (DecodePost lens br) :=
  huffDecodeLoop_sound h lens hh 15 [] br hbr rfl

/-- With the rest of a codeword ahead, the walk passes its proper prefixes,
which lie above the words of their length, and returns its symbol. -/
theorem huffDecodeLoop_complete (h : Huff) (lens : List Nat) (hh : h.Holds lens) (k s : Nat)
    (u v : List Bool) (br : Br) (hbr : br.Ok) (hk : k + u.length = 15)
    (hword : Codeword 15 lens s (u ++ v)) (hv : v ≠ []) (tail : List Bool)
    (hrest : br.rest = v ++ tail) :
    Ends (huffDecodeLoop h k (u.length + 1) (msb u)) br fun r br' =>
      br'.Ok ∧ br.Same br' ∧ r = s ∧ br'.rest = tail := by
  induction k generalizing u v br with
  | zero =>
    have hle := hword.le
    have hlen := List.length_pos_iff.mpr hv
    simp only [List.length_append] at hle
    omega
  | succ k ih =>
    obtain ⟨b, v, rfl⟩ := List.exists_cons_of_ne_nil hv
    refine Ends.bind (brBits_one br hbr) ?_
    rintro bit br' ⟨hok, hsame, ⟨c, hrest', rfl⟩ | ⟨hnil, -, -⟩⟩
    · rw [hrest, List.cons_append] at hrest'
      obtain ⟨rfl, htail⟩ := List.cons.inj hrest'
      rw [if_neg (by omega)]
      simp only [Int.toNat_natCast, code_snoc]
      have hlen : (u ++ [b]).length = u.length + 1 := by simp
      rw [List.append_cons u b v] at hword
      refine Ends.load_bind (hh.codes _ (by omega) (by omega)) ?_
      rw [← hlen]
      by_cases hend : v = []
      · subst hend
        rw [List.append_nil] at hword
        have hcode := hword.code
        have hcount := rank_lt lens s hword.lt
        rw [hword.len] at hcount
        rw [if_neg (by omega)]
        refine Ends.load_bind (hh.counts _ (by omega) (by omega)) ?_
        rw [if_pos (by omega)]
        refine Ends.load_bind (hh.places _ (by omega) (by omega)) ?_
        have hsym := hh.syms s hword.lt (by rw [hword.len]; omega) (by rw [hword.len]; omega)
        rw [hword.len] at hsym
        refine Ends.load_bind (x := s) ?_ (Ends.pure ⟨hok, hsame, rfl, htail.symm⟩)
        rw [hcode, Nat.add_sub_cancel_left]
        exact hsym
      · have habove := hword.prefix_above (u.length + 1) (by omega) (by
          have := List.length_pos_iff.mpr hend
          simp only [List.length_append, hlen]
          omega)
        rw [← hlen, List.take_left] at habove
        rw [if_neg (by omega)]
        refine Ends.load_bind (hh.counts _ (by omega) (by omega)) ?_
        rw [if_neg (by omega)]
        refine (ih (u ++ [b]) v br' hok (by omega) hword hend htail.symm).mono ?_
        rintro r br'' ⟨hok', hsame', hr, hleft⟩
        exact ⟨hok', hsame.trans hsame', hr, hleft⟩
    · rw [hrest] at hnil
      cases hnil

theorem huffDecode_complete (h : Huff) (lens : List Nat) (hh : h.Holds lens) (s : Nat)
    (w tail : List Bool) (br : Br) (hbr : br.Ok) (hword : Codeword 15 lens s w)
    (hrest : br.rest = w ++ tail) :
    Ends (huffDecode h) br fun r br' => br'.Ok ∧ br.Same br' ∧ r = s ∧ br'.rest = tail :=
  huffDecodeLoop_complete h lens hh 15 s [] w br hbr rfl hword
    (List.length_pos_iff.mp hword.pos) tail hrest

/-- The codeword of a symbol that has one. -/
def Encodes (lens : List Nat) (s : Nat) (w : List Bool) : Prop :=
  s < lens.length ∧ 0 < lens.getD s 0 ∧ w = codeword lens s

theorem encodes_iff {lens : List Nat} (hkraft : Kraft 15 lens) (s : Nat) (w : List Bool) :
    Encodes lens s w ↔ Codeword 15 lens s w := by
  constructor
  · rintro ⟨hs, hpos, rfl⟩
    exact hkraft.codeword hs hpos
  · intro h
    refine ⟨h.lt, ?_, h.unique⟩
    rw [h.len]
    exact h.pos

/-- The walk returns the symbol whose codeword is next and consumes just that, and
fails where no codeword is next. -/
structure Huff.Inverts (h : Huff) (lens : List Nat) : Prop where
  symbol : ∀ (br : Br) (s : Nat) (w tail : List Bool), br.Ok → Encodes lens s w →
    br.rest = w ++ tail →
      Ends (huffDecode h) br fun r br' => r = s ∧ br'.Ok ∧ br.Same br' ∧ br'.rest = tail
  none : ∀ br : Br, br.Ok →
    (∀ (w : List Bool) (s : Nat), w <+: br.rest → w.length ≤ 15 → ¬ Encodes lens s w) →
      Ends (huffDecode h) br fun r br' => r = -1 ∧ br'.Ok ∧ br.Same br'

/-- For all lengths that fit a prefix code, `huff_decode` inverts the canonical code on
the tables of `huff_build`. -/
theorem huffBuild_inverts (lens : List Nat) (hsize : lens.length ≤ 320) (hkraft : Kraft 15 lens)
    (s : σ) : Ends (huffBuild lens lens.length) s fun h s' => s' = s ∧ h.Inverts lens := by
  refine (huffBuild_spec lens lens.length s (Nat.le_refl _) hsize).mono ?_
  rintro h s' ⟨hs, hh⟩
  rw [List.take_length] at hh
  refine ⟨hs, ⟨fun br sym w tail hbr hw hrest => ?_, fun br hbr hno => ?_⟩⟩
  · have hword := (encodes_iff hkraft sym w).mp hw
    refine (huffDecode_complete h lens hh sym w tail br hbr hword hrest).mono ?_
    rintro r br' ⟨hok, hsame, hr, hleft⟩
    exact ⟨hr, hok, hsame, hleft⟩
  · refine (huffDecode_sound h lens hh br hbr).mono ?_
    rintro r br' ⟨hok, hsame, w, hrest, hcase⟩
    refine ⟨hcase.resolve_right ?_, hok, hsame⟩
    rintro ⟨sym, -, hword⟩
    exact hno w sym ⟨br'.rest, hrest.symm⟩ hword.le ((encodes_iff hkraft sym w).mpr hword)

/-- The lengths of RFC 1951's example, 3.2.2. -/
theorem huffBuild_inverts_example :
    Ends (huffBuild [3, 3, 3, 3, 3, 2, 4, 4] 8) () fun h s' =>
      s' = () ∧ h.Inverts [3, 3, 3, 3, 3, 2, 4, 4] :=
  huffBuild_inverts [3, 3, 3, 3, 3, 2, 4, 4] (by decide) (by decide) ()

end Cage.Compress
