import Cage.Compress.Decompress

/-!
`decompress_gzip` against RFC 1952. The header walk is specified on the bytes
behind the offset, the loop over the blocks on the bits the reader has left.
-/

namespace Cage.Compress

open Lib.Bits Lib.Checked Lib.Crc Util

variable {σ : Type}

/-- What a skipping function does with the bytes `rest` behind its offset: it
fails, or it moves past a field of the right form. -/
def Skips (pre rest : List UInt8) (form : List UInt8 → Prop) (s : σ) (r : Option Nat) (s' : σ) :
    Prop :=
  s' = s ∧ (r = none ∨ ∃ fld rest', rest = fld ++ rest' ∧ form fld ∧ r = some (pre ++ fld).length)

theorem advance_skips (pre rest : List UInt8) (n : Nat) (s : σ) :
    Skips pre rest (fun fld => fld.length = n) s
      (advance pre.length n (pre ++ rest).length) s := by
  unfold advance
  rw [List.length_append]
  by_cases h : pre.length + n > pre.length + rest.length
  · rw [if_pos h]
    exact ⟨rfl, Or.inl rfl⟩
  · rw [if_neg h]
    have htake : (rest.take n).length = n := by
      rw [List.length_take]
      omega
    refine ⟨rfl, Or.inr ⟨rest.take n, rest.drop n, (List.take_append_drop n rest).symm, htake, ?_⟩⟩
    rw [List.length_append, htake]

/-- A field behind a field. -/
theorem Ends.skips_bind {m : Exec σ (Option Nat)} {f : Option Nat → Exec σ (Option Nat)} {s : σ}
    {pre rest : List UInt8} {form form'' : List UInt8 → Prop} (form' : List UInt8 → Prop)
    (hm : Ends m s (Skips pre rest form s)) (hnone : f none = Pure.pure none)
    (hf : ∀ fld rest', rest = fld ++ rest' →
      Ends (f (some (pre ++ fld).length)) s (Skips (pre ++ fld) rest' form' s))
    (happend : ∀ a b, form a → form' b → form'' (a ++ b)) :
    Ends (m >>= f) s (Skips pre rest form'' s) := by
  apply Ends.bind hm
  rintro r s₁ ⟨rfl, rfl | ⟨fld, rest', hrest, hform, rfl⟩⟩
  · rw [hnone]
    exact Ends.pure ⟨rfl, Or.inl rfl⟩
  · apply (hf fld rest' hrest).mono
    rintro r s₂ ⟨rfl, rfl | ⟨fld', rest₂, rfl, hform', rfl⟩⟩
    · exact ⟨rfl, Or.inl rfl⟩
    · refine ⟨rfl, Or.inr ⟨fld ++ fld', rest₂, ?_, happend fld fld' hform hform', ?_⟩⟩
      · rw [hrest, List.append_assoc]
      · rw [List.append_assoc]

theorem Ends.skips_mono {m : Exec σ (Option Nat)} {s : σ} {pre rest : List UInt8}
    {form form' : List UInt8 → Prop} (hm : Ends m s (Skips pre rest form s))
    (h : ∀ fld, form fld → form' fld) : Ends m s (Skips pre rest form' s) := by
  apply hm.mono
  rintro r s₁ ⟨hs, hr | ⟨fld, rest', hrest, hform, hr⟩⟩
  · exact ⟨hs, Or.inl hr⟩
  · exact ⟨hs, Or.inr ⟨fld, rest', hrest, h fld hform, hr⟩⟩

theorem skips_nothing (pre rest : List UInt8) (s : σ) :
    Skips pre rest (fun fld => fld = []) s (some pre.length) s :=
  ⟨rfl, Or.inr ⟨[], rest, rfl, rfl, by rw [List.append_nil]⟩⟩

/-- The length of `FEXTRA`, from its two bytes. -/
theorem xlen_value (lo hi : UInt8) :
    lo.toNat ||| (hi.toNat <<< 8) = value (byteBits [lo, hi]) := by
  rw [byteBits_cons, byteBits_cons, byteBits_nil, List.append_nil, value_append, value_field,
    value_field, field_length, Nat.mod_eq_of_lt lo.toNat_lt, Nat.mod_eq_of_lt hi.toNat_lt,
    Nat.lor_comm, ← Nat.shiftLeft_add_eq_or_of_lt lo.toNat_lt, Nat.shiftLeft_eq]
  ring

theorem skipFextra_spec (pre rest : List UInt8) (s : σ) :
    Ends (skipFextra (pre ++ rest) (pre ++ rest).length pre.length) s
      (Skips pre rest (fun fld => ∃ xs : List UInt8, xs.length < 2 ^ 16 ∧ fld = extraField (some xs)) s) := by
  unfold skipFextra
  by_cases h : pre.length + 2 > (pre ++ rest).length
  · rw [if_pos h]
    exact Ends.pure ⟨rfl, Or.inl rfl⟩
  · rw [if_neg h]
    rw [List.length_append] at h
    obtain ⟨lo, hi, rest, rfl⟩ : ∃ lo hi rest', rest = lo :: hi :: rest' := by
      match rest, h with
      | lo :: hi :: rest', _ => exact ⟨lo, hi, rest', rfl⟩
      | [_], h => exact absurd (by simp) h
      | [], h => exact absurd (by simp) h
    apply Ends.load_bind (x := lo) (by simp)
    apply Ends.load_bind (x := hi) (by simp)
    have hlen := xlen_value lo hi
    have hlt : value (byteBits [lo, hi]) < 2 ^ 16 := by
      have := value_lt (byteBits [lo, hi])
      rwa [byteBits_length] at this
    rw [hlen]
    rcases advance_skips pre (lo :: hi :: rest) (2 + value (byteBits [lo, hi])) s with
      ⟨-, h | ⟨fld, rest', hrest, hfld, hr⟩⟩
    · exact Ends.pure ⟨rfl, Or.inl h⟩
    · refine Ends.pure ⟨rfl, Or.inr ⟨fld, rest', hrest, ?_, hr⟩⟩
      obtain ⟨xs, rfl⟩ : ∃ xs, fld = lo :: hi :: xs := by
        match fld, hfld with
        | a :: b :: xs, _ =>
          simp only [List.cons_append, List.cons.injEq] at hrest
          exact ⟨xs, by rw [hrest.1, hrest.2.1]⟩
        | [_], h => simp at h; omega
        | [], h => simp at h; omega
      simp only [List.length_cons] at hfld
      refine ⟨xs, by omega, ?_⟩
      have hle : leBytes 2 xs.length = [lo, hi] := by
        apply leBytes_value [lo, hi] 2 _ rfl
        rw [Nat.mod_eq_of_lt (by omega)]
        omega
      rw [extraField, hle]
      rfl

theorem skipStringLoop_spec (p : List UInt8) (fuel : Nat) (pre rest : List UInt8) (hp : p = pre ++ rest)
    (s : σ) (hfuel : rest.length < fuel) :
    Ends (skipStringLoop p p.length fuel pre.length) s fun o s' => s' = s ∧
      ((∃ str rest', rest = str ++ 0 :: rest' ∧ 0 ∉ str ∧ o = (pre ++ str).length) ∨
        o = p.length) := by
  induction fuel generalizing pre rest with
  | zero => omega
  | succ fuel ih =>
    unfold skipStringLoop
    cases rest with
    | nil =>
      rw [if_neg (by rw [hp]; simp)]
      exact Ends.pure ⟨rfl, Or.inr (by rw [hp, List.append_nil])⟩
    | cons c rest =>
      rw [if_pos (by rw [hp]; simp)]
      apply Ends.load_bind (x := c) (by rw [hp]; simp)
      by_cases hc : c ≠ 0
      · rw [if_pos hc]
        have hih := ih (pre ++ [c]) rest (by rw [hp]; simp) (by simpa using hfuel)
        rw [List.length_append, List.length_singleton] at hih
        apply hih.mono
        rintro o s' ⟨rfl, ⟨str, rest', rfl, hstr, rfl⟩ | rfl⟩
        · refine ⟨rfl, Or.inl ⟨c :: str, rest', rfl, ?_, by simp⟩⟩
          simp only [List.mem_cons, not_or]
          exact ⟨fun h => hc h.symm, hstr⟩
        · exact ⟨rfl, Or.inr rfl⟩
      · rw [if_neg hc]
        rw [not_not] at hc
        subst hc
        exact Ends.pure ⟨rfl, Or.inl ⟨[], rest, rfl, by simp, by simp⟩⟩

theorem skipString_spec (pre rest : List UInt8) (s : σ) :
    Ends (skipString (pre ++ rest) (pre ++ rest).length pre.length) s
      (Skips pre rest (fun fld => ∃ str : List UInt8, 0 ∉ str ∧ fld = stringField (some str)) s) := by
  apply Ends.bind (skipStringLoop_spec (pre ++ rest) _ pre rest rfl s
    (by rw [List.length_append]; omega))
  rintro o s₁ ⟨rfl, ⟨str, rest', rfl, hstr, rfl⟩ | rfl⟩
  · rw [if_neg (by simp)]
    refine Ends.pure ⟨rfl, Or.inr ⟨str ++ [0], rest', by simp, ⟨str, hstr, rfl⟩, by simp; omega⟩⟩
  · rw [if_pos (Nat.le_refl _)]
    exact Ends.pure ⟨rfl, Or.inl rfl⟩

/-- A string field, there if its flag is set. -/
def StringOpt (flg : UInt8) (mask : Nat) (str : Option (List UInt8)) : Prop :=
  Announced flg mask str ∧ ∀ s ∈ str, 0 ∉ s

theorem skipStrings_spec (flg : UInt8) (strFlags : List Nat) (pre rest : List UInt8) (s : σ) :
    Ends (skipStrings (pre ++ rest) (pre ++ rest).length flg.toNat strFlags pre.length) s
      (Skips pre rest (fun fld => ∃ strs, List.Forall₂ (StringOpt flg) strFlags strs ∧
        fld = strs.flatMap stringField) s) := by
  induction strFlags generalizing pre rest with
  | nil =>
    apply Ends.skips_mono (Ends.pure (skips_nothing pre rest s))
    rintro fld rfl
    exact ⟨[], List.Forall₂.nil, rfl⟩
  | cons f strFlags ih =>
    unfold skipStrings
    by_cases hf : flg.toNat &&& f ≠ 0
    · rw [if_pos hf]
      apply Ends.skips_bind (fun fld => ∃ strs, List.Forall₂ (StringOpt flg) strFlags strs ∧
        fld = strs.flatMap stringField) (skipString_spec pre rest s)
      · rfl
      · intro fld rest' hrest
        have hrec := ih (pre ++ fld) rest'
        rw [List.append_assoc, ← hrest] at hrec
        exact hrec
      · rintro _ _ ⟨str, hstr, rfl⟩ ⟨strs, hstrs, rfl⟩
        refine ⟨some str :: strs, List.Forall₂.cons ⟨⟨fun _ => hf, fun _ => rfl⟩, ?_⟩ hstrs, rfl⟩
        rintro s ⟨⟩
        exact hstr
    · rw [if_neg hf]
      apply Ends.skips_mono (ih pre rest)
      rintro fld ⟨strs, hstrs, rfl⟩
      refine ⟨none :: strs, List.Forall₂.cons ⟨?_, nofun⟩ hstrs, rfl⟩
      exact ⟨nofun, fun h => absurd h hf⟩

theorem skipGzipTail_spec (flg : UInt8) (pre rest : List UInt8) (s : σ) :
    Ends (skipGzipTail (pre ++ rest) (pre ++ rest).length pre.length flg.toNat) s
      (Skips pre rest (fun fld => ∃ name comment hcrc, StringOpt flg 0x08 name ∧
        StringOpt flg 0x10 comment ∧ Announced flg 0x02 hcrc ∧ (∀ c ∈ hcrc, c.length = 2) ∧
        fld = stringField name ++ stringField comment ++ hcrc.getD []) s) := by
  apply Ends.skips_bind (fun fld => ∃ hcrc, Announced flg 0x02 hcrc ∧ (∀ c ∈ hcrc, c.length = 2) ∧
    fld = hcrc.getD []) (skipStrings_spec flg [0x08, 0x10] pre rest s)
  · rfl
  · rintro fld rest' rfl
    by_cases hf : flg.toNat &&& 0x02 ≠ 0
    · simp only [if_pos hf]
      have hadv := advance_skips (pre ++ fld) rest' 2 s
      rw [List.append_assoc] at hadv
      apply Ends.skips_mono (Ends.pure hadv)
      intro fld' hlen
      exact ⟨some fld', ⟨fun _ => hf, fun _ => rfl⟩, by rintro c ⟨⟩; exact hlen, rfl⟩
    · simp only [if_neg hf]
      apply Ends.skips_mono (Ends.pure (skips_nothing (pre ++ fld) rest' s))
      rintro _ rfl
      exact ⟨none, ⟨nofun, fun h => absurd h hf⟩, nofun, rfl⟩
  · rintro _ _ ⟨strs, hstrs, rfl⟩ ⟨hcrc, hannounced, hlen, rfl⟩
    cases hstrs with
    | cons hname hstrs =>
      cases hstrs with
      | cons hcomment hstrs =>
        cases hstrs
        exact ⟨_, _, hcrc, hname, hcomment, hannounced, hlen, by simp⟩

theorem skipGzipFlags_spec (flg : UInt8) (pre rest : List UInt8) (s : σ) :
    Ends (skipGzipFlags (pre ++ rest) (pre ++ rest).length pre.length flg.toNat) s
      (Skips pre rest (fun fld => ∃ extra name comment hcrc, Announced flg 0x04 extra ∧
        (∀ xs ∈ extra, xs.length < 2 ^ 16) ∧ StringOpt flg 0x08 name ∧
        StringOpt flg 0x10 comment ∧ Announced flg 0x02 hcrc ∧ (∀ c ∈ hcrc, c.length = 2) ∧
        fld = extraField extra ++ (stringField name ++ stringField comment ++ hcrc.getD [])) s) := by
  unfold skipGzipFlags
  by_cases hf : flg.toNat &&& 0x04 ≠ 0
  · rw [if_pos hf]
    apply Ends.skips_bind (fun fld => ∃ name comment hcrc, StringOpt flg 0x08 name ∧
      StringOpt flg 0x10 comment ∧ Announced flg 0x02 hcrc ∧ (∀ c ∈ hcrc, c.length = 2) ∧
      fld = stringField name ++ stringField comment ++ hcrc.getD []) (skipFextra_spec pre rest s)
    · rfl
    · rintro fld rest' rfl
      have htail := skipGzipTail_spec flg (pre ++ fld) rest' s
      rw [List.append_assoc] at htail
      exact htail
    · rintro _ _ ⟨xs, hxs, rfl⟩ ⟨name, comment, hcrc, hname, hcomment, hhcrc, hlen, rfl⟩
      exact ⟨some xs, name, comment, hcrc, ⟨fun _ => hf, fun _ => rfl⟩, by rintro _ ⟨⟩; exact hxs,
        hname, hcomment, hhcrc, hlen, rfl⟩
  · rw [if_neg hf]
    apply Ends.skips_mono (skipGzipTail_spec flg pre rest s)
    rintro _ ⟨name, comment, hcrc, hname, hcomment, hhcrc, hlen, rfl⟩
    exact ⟨none, name, comment, hcrc, ⟨nofun, fun h => absurd h hf⟩, nofun, hname, hcomment, hhcrc,
      hlen, rfl⟩

theorem checkGzipMagic_spec (p : List UInt8) (s : σ) :
    Ends (checkGzipMagic p p.length) s fun r s' => s' = s ∧ (r = -1 ∨
      (r = 0 ∧ ∃ flg info rest, info.length = 6 ∧ p = [0x1F, 0x8B, 8, flg] ++ info ++ rest)) := by
  unfold checkGzipMagic
  by_cases hlen : p.length < 18
  · rw [if_pos hlen]
    exact Ends.pure ⟨rfl, Or.inl rfl⟩
  · rw [if_neg hlen]
    obtain ⟨id1, id2, cm, flg, tl, rfl⟩ : ∃ id1 id2 cm flg tl, p = id1 :: id2 :: cm :: flg :: tl := by
      match p, hlen with
      | a :: b :: c :: d :: tl, _ => exact ⟨a, b, c, d, tl, rfl⟩
      | [_, _, _], h | [_, _], h | [_], h | [], h => exact absurd (by simp) h
    apply Ends.load_bind (x := id1) rfl
    by_cases h1 : id1 ≠ 0x1F
    · rw [if_pos h1]
      exact Ends.pure ⟨rfl, Or.inl rfl⟩
    rw [if_neg h1]
    apply Ends.load_bind (x := id2) rfl
    by_cases h2 : id2 ≠ 0x8B
    · rw [if_pos h2]
      exact Ends.pure ⟨rfl, Or.inl rfl⟩
    rw [if_neg h2]
    apply Ends.load_bind (x := cm) rfl
    by_cases h3 : cm ≠ 8
    · rw [if_pos h3]
      exact Ends.pure ⟨rfl, Or.inl rfl⟩
    rw [if_neg h3]
    rw [not_not] at h1 h2 h3
    subst h1 h2 h3
    simp only [List.length_cons] at hlen
    exact Ends.pure ⟨rfl, Or.inr ⟨rfl, flg, tl.take 6, tl.drop 6, by rw [List.length_take]; omega,
      by simp⟩⟩

theorem skipGzipHeader_spec (p : List UInt8) (s : σ) :
    Ends (skipGzipHeader p p.length) s fun r s' => s' = s ∧ (r = none ∨
      ∃ (h : GzHeader) (rest : List UInt8), h.Valid false ∧ p = h.bytes ++ rest ∧ rest ≠ [] ∧
        r = some h.bytes.length) := by
  apply Ends.bind (checkGzipMagic_spec p s)
  rintro r s₁ ⟨rfl, rfl | ⟨rfl, flg, info, rest, hinfo, hp⟩⟩
  · rw [if_pos (by omega)]
    exact Ends.pure ⟨rfl, Or.inl rfl⟩
  · rw [if_neg (by omega)]
    apply Ends.load_bind (x := flg) (by rw [hp]; rfl)
    have hflags := skipGzipFlags_spec flg ([0x1F, 0x8B, 8, flg] ++ info) rest s₁
    rw [← hp, show ([0x1F, 0x8B, 8, flg] ++ info).length = 10 by simp [hinfo]] at hflags
    apply Ends.bind hflags
    rintro r s₂ ⟨rfl, rfl | ⟨fld, rest', rfl, ⟨extra, name, comment, hcrc, hextra, hxs, hname,
      hcomment, hhcrc, hlen, hfld⟩, rfl⟩⟩
    · exact Ends.pure ⟨rfl, Or.inl rfl⟩
    · have hbytes : [0x1F, 0x8B, 8, flg] ++ info ++ fld =
          (GzHeader.mk flg info extra name comment hcrc).bytes := by
        simp only [hfld, GzHeader.bytes, GzHeader.covered, List.append_assoc]
      rw [← List.append_assoc, hbytes] at hp
      simp only [hbytes]
      by_cases hend : (GzHeader.mk flg info extra name comment hcrc).bytes.length ≥ p.length
      · rw [if_pos hend]
        exact Ends.pure ⟨rfl, Or.inl rfl⟩
      · rw [if_neg hend]
        refine Ends.pure ⟨rfl, Or.inr ⟨⟨flg, info, extra, name, comment, hcrc⟩, rest', ?_, hp, ?_, rfl⟩⟩
        · exact ⟨hinfo, hextra, hxs, hname.1, hname.2, hcomment.1, hcomment.2, hhcrc, hlen, nofun⟩
        · rintro rfl
          exact hend (by rw [hp, List.append_nil])

/-- A part put above the bits in use. -/
private theorem or_shifted (x b j : Nat) (hx : x < 2 ^ j) :
    BitVec.ofNat 32 x ||| (BitVec.ofNat 32 b <<< j) = BitVec.ofNat 32 (x + 2 ^ j * b) := by
  have hadd : x + 2 ^ j * b = x ||| (b <<< j) := by
    rw [Nat.lor_comm, ← Nat.shiftLeft_add_eq_or_of_lt hx, Nat.shiftLeft_eq]
    ring
  rw [hadd]
  apply BitVec.eq_of_getLsbD_eq
  intro i hi
  have hlt : i - j < 32 := by omega
  simp only [BitVec.getLsbD_or, BitVec.getLsbD_shiftLeft, BitVec.getLsbD_ofNat, Nat.testBit_or,
    Nat.testBit_shiftLeft, hi, hlt, decide_true, Bool.true_and]
  by_cases hij : i < j
  · simp [hij]
  · simp [hij, show j ≤ i by omega]

theorem read32le_spec (p four pre tail : List UInt8) (hp : p = pre ++ (four ++ tail))
    (hfour : four.length = 4) (s : σ) :
    Ends (read32le p pre.length) s fun v s' => s' = s ∧
      v = BitVec.ofNat 32 (value (byteBits four)) := by
  have hloop : Ends (read32le p pre.length) s fun v s' => s' = s ∧
      v = BitVec.ofNat 32 (value (byteBits (four.take (0 + 4)))) := by
    apply Ends.loopUp (fun j v s' => s' = s ∧ v = BitVec.ofNat 32 (value (byteBits (four.take j))))
    · rintro j v s' - hj ⟨rfl, rfl⟩
      have hjlt : j < four.length := by omega
      have hget : four[j]? = some four[j] := List.getElem?_eq_getElem hjlt
      apply Ends.load_bind (x := four[j])
      · rw [hp, List.getElem?_append_right (by omega), Nat.add_sub_cancel_left,
          List.getElem?_append_left hjlt, hget]
      refine Ends.pure ⟨rfl, ?_⟩
      have hlow := value_lt (byteBits (four.take j))
      rw [byteBits_length, List.length_take, Nat.min_eq_left (by omega)] at hlow
      rw [List.take_add_one, hget, byteBits_append, value_append, byteBits_length, List.length_take,
        Nat.min_eq_left (by omega)]
      simp only [Option.toList_some, byteBits_cons, byteBits_nil, List.append_nil, value_field]
      rw [Nat.mod_eq_of_lt four[j].toNat_lt, Nat.mul_comm j 8, or_shifted _ _ _ hlow]
    · exact ⟨rfl, rfl⟩
  apply hloop.mono
  rintro v s' ⟨rfl, rfl⟩
  rw [List.take_of_length_le (by omega)]
  exact ⟨rfl, rfl⟩

theorem Ends.onCrc {α : Type} {m : Exec Crc32 α} {gz : Gz} {q : α → Crc32 → Prop}
    (h : Ends m gz.crc q) :
    Ends (onCrc m) gz fun a gz' => q a gz'.crc ∧ gz'.out = gz.out :=
  Ends.zoom (h.mono fun _ _ ha => ⟨ha, rfl⟩)

/-- What a call relies on and leaves behind. -/
structure Gz.Ok (gz : Gz) : Prop where
  crc : gz.crc.Ok
  out : gz.out.Ok

theorem Gz.init_ok : Gz.init.Ok := ⟨Crc32.init_ok, Buf.init_ok⟩

/-- The trailer is the checksum and the length of the output. -/
theorem checkGzipTrailer_spec (p : List UInt8) (pre tail : List UInt8) (hp : p = pre ++ tail)
    (htail : tail.length = 8) (gz : Gz) (hgz : gz.Ok) :
    Ends (checkGzipTrailer p p.length pre.length) gz fun r gz' => gz'.Ok ∧ gz'.out = gz.out ∧
      (r = -1 ∨ (r = 0 ∧ tail = gzTrailer gz.out.data)) := by
  unfold checkGzipTrailer
  rw [if_neg (by rw [hp, List.length_append]; omega)]
  have hfour : (tail.take 4).length = 4 := by rw [List.length_take]; omega
  have hfour' : (tail.drop 4).length = 4 := by rw [List.length_drop]; omega
  apply Ends.bind (read32le_spec p (tail.take 4) pre (tail.drop 4)
    (by rw [List.take_append_drop, hp]) hfour gz)
  rintro expectedCrc gz₁ ⟨rfl, hcrc⟩
  have hread := read32le_spec p (tail.drop 4) (pre ++ tail.take 4) []
    (by rw [List.append_nil, List.append_assoc, List.take_append_drop, hp]) hfour' gz₁
  rw [List.length_append, hfour] at hread
  apply Ends.bind hread
  rintro expectedLen gz₂ ⟨rfl, hlen⟩
  apply Ends.bind (Ends.onCrc (crc32Init_spec gz₂.crc hgz.crc))
  rintro _ gz₃ ⟨⟨hok₃, hready⟩, hout₃⟩
  apply Ends.get_bind
  apply Ends.bind (Ends.onCrc (crc32Update_spec 0 gz₃.out.data gz₃.out.data.length gz₃.crc hok₃ hready
    (Nat.le_refl _)))
  rintro actualCrc gz₄ ⟨⟨hcrc₄, hactual⟩, hout₄⟩
  have hout : gz₄.out = gz₂.out := by rw [hout₄, hout₃]
  have hok₄ : gz₄.Ok := ⟨by rw [hcrc₄]; exact hok₃, by rw [hout]; exact hgz.out⟩
  rw [hout₃, List.take_length] at hactual
  by_cases hne : actualCrc ≠ expectedCrc
  · rw [if_pos hne]
    exact Ends.pure ⟨hok₄, hout, Or.inl rfl⟩
  · rw [if_neg hne]
    rw [hout₃]
    by_cases hne' : expectedLen ≠ BitVec.ofNat 32 gz₂.out.data.length
    · rw [if_pos hne']
      exact Ends.pure ⟨hok₄, hout, Or.inl rfl⟩
    · rw [if_neg hne']
      rw [not_not] at hne hne'
      refine Ends.pure ⟨hok₄, hout, Or.inr ⟨rfl, ?_⟩⟩
      have hvalue : ∀ (four : List UInt8) (n : Nat), four.length = 4 →
          BitVec.ofNat 32 (value (byteBits four)) = BitVec.ofNat 32 n → leBytes 4 n = four := by
        intro four n h4 heq
        apply leBytes_value four 4 n h4
        have hlt := value_lt (byteBits four)
        rw [byteBits_length, h4] at hlt
        have hnat := congrArg BitVec.toNat heq
        rw [BitVec.toNat_ofNat, BitVec.toNat_ofNat, Nat.mod_eq_of_lt hlt] at hnat
        exact hnat.symm
      have hcrc' : crc32 gz₂.out.data = actualCrc := hactual.symm
      rw [gzTrailer, hvalue (tail.take 4) _ hfour (by rw [← hcrc, ← hne, hcrc']; simp),
        hvalue (tail.drop 4) _ hfour' (by rw [← hlen, hne']), List.take_append_drop]

/-- The bits left bound the blocks, and the blocks are a stream in the weak
sense. -/
theorem inflateLoop_spec (pos fuel : Nat) (s : Sess) (hbr : s.br.Ok) (hout : s.out.Ok)
    (hpos : (pos + s.br.rest.length) % 8 = 0) (hfuel : s.br.rest.length < fuel) :
    Ends (inflateLoop fuel) s fun r s' => s.Next s' ∧ (r = -1 ∨
      (r = 0 ∧ ∃ (blocks : List Block) (enc : List Bool),
        EncStream false pos s.out.data blocks enc ∧ s.br.rest = enc ++ s'.br.rest ∧
        s'.out.data = s.out.data ++ streamBytes s.out.data blocks)) := by
  induction fuel generalizing pos s with
  | zero => omega
  | succ fuel ih =>
    apply Ends.bind (inflateBlock_sound pos s hbr hout hpos)
    rintro r s₁ ⟨hnext₁, rfl | ⟨final, b, bits, rfl, henc, hrest, hdata⟩⟩
    · exact Ends.pure ⟨hnext₁, Or.inl rfl⟩
    · cases final with
      | true =>
        refine Ends.pure ⟨hnext₁, Or.inr ⟨rfl, [b], bits, EncStream.last pos _ b bits henc, hrest, ?_⟩⟩
        rw [hdata, streamBytes, streamBytes, List.append_nil]
      | false =>
        have hlen : s.br.rest.length = bits.length + s₁.br.rest.length := by
          rw [hrest, List.length_append]
        have hge := henc.length_le
        rw [if_neg (by simp), if_neg (by simp)]
        apply (ih (pos + bits.length) s₁ hnext₁.1 hnext₁.2.1 (by omega) (by omega)).mono
        rintro r s₂ ⟨hnext₂, rfl | ⟨rfl, blocks, enc, hstream, hrest₂, hdata₂⟩⟩
        · exact ⟨hnext₁.trans hnext₂, Or.inl rfl⟩
        · rw [hdata] at hstream hdata₂
          refine ⟨hnext₁.trans hnext₂, Or.inr ⟨rfl, b :: blocks, bits ++ enc,
            EncStream.more pos _ b blocks bits enc henc hstream, ?_, ?_⟩⟩
          · rw [hrest, hrest₂, List.append_assoc]
          · rw [hdata₂, streamBytes, List.append_assoc]

theorem Ends.withBr {α : Type} {m : Exec Sess α} {br : Br} {gz : Gz} {q : α → Buf → Prop}
    (h : Ends m { br := br, out := gz.out } fun a s => q a s.out) :
    Ends (withBr br m) gz fun a gz' => q a gz'.out ∧ gz'.crc = gz.crc :=
  Ends.zoom (h.mono fun _ _ ha => ⟨ha, rfl⟩)

/-- The whole run. On acceptance the input is a header, a body that begins with
a stream for the bytes appended, and the trailer of the output; how much of the
body the stream takes is not said. -/
theorem decompressGzip_spec (p : List UInt8) (gz : Gz) (hgz : gz.Ok) :
    Ends (decompressGzip p) gz fun r gz' => gz'.Ok ∧ (r = -1 ∨
      (r = 0 ∧ ∃ (h : GzHeader) (body : List UInt8) (blocks : List Block) (enc pad : List Bool),
        h.Valid false ∧ p = h.bytes ++ body ++ gzTrailer gz'.out.data ∧
        EncStream false 0 gz.out.data blocks enc ∧ byteBits body = enc ++ pad ∧
        gz'.out.data = gz.out.data ++ streamBytes gz.out.data blocks)) := by
  apply Ends.bind (skipGzipHeader_spec p gz)
  rintro r gz₁ ⟨rfl, rfl | ⟨h, rest, hvalid, hp, -, rfl⟩⟩
  · exact Ends.pure ⟨hgz, Or.inl rfl⟩
  · have hlen : p.length = h.bytes.length + rest.length := by rw [hp, List.length_append]
    by_cases hshort : h.bytes.length + 8 > p.length
    · simp only [if_pos hshort]
      exact Ends.pure ⟨hgz, Or.inl rfl⟩
    · simp only [if_neg hshort]
      have hdrop : p.drop h.bytes.length = rest := by rw [hp, List.drop_left]
      rw [hdrop]
      obtain ⟨body, tail, hsplit, hbody, htail⟩ : ∃ body tail, rest = body ++ tail ∧
          body.length = p.length - h.bytes.length - 8 ∧ tail.length = 8 :=
        ⟨rest.take (rest.length - 8), rest.drop (rest.length - 8), (List.take_append_drop _ _).symm,
          by rw [List.length_take]; omega, by rw [List.length_drop]; omega⟩
      rw [← hbody]
      have hbits : (brInit rest body.length).rest = byteBits body := by
        rw [brInit_rest, hsplit, List.take_left]
      have hloop := inflateLoop_spec 0 (8 * p.length + 1) ⟨brInit rest body.length, gz₁.out⟩
        (brInit_ok rest body.length (by omega)) hgz.out
        (by rw [hbits, byteBits_length]; omega) (by rw [hbits, byteBits_length]; omega)
      apply Ends.bind (Ends.withBr (q := fun a out => out.Ok ∧ (a = -1 ∨ (a = 0 ∧
        ∃ (blocks : List Block) (enc pad : List Bool), EncStream false 0 gz₁.out.data blocks enc ∧
          byteBits body = enc ++ pad ∧
          out.data = gz₁.out.data ++ streamBytes gz₁.out.data blocks))) (hloop.mono ?_))
      · rintro r gz₂ ⟨⟨hok₂, rfl | ⟨rfl, blocks, enc, pad, hstream, henc, hdata⟩⟩, hcrc₂⟩
        · rw [if_pos (by omega)]
          exact Ends.pure ⟨⟨by rw [hcrc₂]; exact hgz.crc, hok₂⟩, Or.inl rfl⟩
        · rw [if_neg (by omega)]
          have hp' : p = (h.bytes ++ body) ++ tail := by rw [hp, hsplit, List.append_assoc]
          have hend : p.length - 8 = (h.bytes ++ body).length := by
            rw [List.length_append]
            omega
          rw [hend]
          apply (checkGzipTrailer_spec p (h.bytes ++ body) tail hp' htail gz₂
            ⟨by rw [hcrc₂]; exact hgz.crc, hok₂⟩).mono
          rintro r gz₃ ⟨hok₃, hout₃, rfl | ⟨rfl, htrailer⟩⟩
          · exact ⟨hok₃, Or.inl rfl⟩
          · refine ⟨hok₃, Or.inr ⟨rfl, h, body, blocks, enc, pad, hvalid, ?_, hstream, henc, ?_⟩⟩
            · rw [hout₃, ← htrailer]
              exact hp'
            · rw [hout₃]
              exact hdata
      · rintro r s ⟨hnext, rfl | ⟨rfl, blocks, enc, hstream, hrest, hdata⟩⟩
        · exact ⟨hnext.2.1, Or.inl rfl⟩
        · exact ⟨hnext.2.1, Or.inr ⟨rfl, blocks, enc, s.br.rest, hstream, by rw [← hbits]; exact hrest,
            hdata⟩⟩

/-- On every input the run ends inside its tables, with one of the two results,
and the buffer stays inside its allocation. -/
theorem decompressGzip_ends (input : List UInt8) (gz : Gz) (hgz : gz.Ok) :
    Ends (decompressGzip input) gz fun r gz' => (r = 0 ∨ r = -1) ∧ gz'.Ok := by
  apply (decompressGzip_spec input gz hgz).mono
  rintro r gz' ⟨hok, hr | ⟨hr, -⟩⟩
  · exact ⟨Or.inr hr, hok⟩
  · exact ⟨Or.inl hr, hok⟩

/-- The body stops inside the length of a stored block. -/
theorem decompressGzip_ends_truncated :
    Ends (decompressGzip [0x1F, 0x8B, 8, 0, 0, 0, 0, 0, 0, 0xFF, 1, 0, 0, 0, 0, 0, 0, 0, 0, 0])
      Gz.init fun r gz' => (r = 0 ∨ r = -1) ∧ gz'.Ok :=
  decompressGzip_ends _ Gz.init Gz.init_ok

/-- The output for `input` from an empty buffer, where the run returns 0. -/
def gzData (input : List UInt8) : Option (List UInt8) :=
  match decompressGzip input Gz.init with
  | .ok (0, gz) => some gz.out.data
  | _ => none

theorem gzData_run {input out : List UInt8} (h : gzData input = some out) :
    ∃ gz, decompressGzip input Gz.init = .ok (0, gz) ∧ gz.out.data = out := by
  unfold gzData at h
  split at h
  · exact ⟨_, by assumption, Option.some.inj h⟩
  · cases h

/-- On acceptance from an empty buffer the input is a header, a body that begins
with a stream for the output, and the trailer of the output; if the stream takes
the body up to its last byte, the input is one member in the weak sense. -/
theorem decompressGzip_member (input : List UInt8) (gz gz' : Gz) (hgz : gz.Ok)
    (hempty : gz.out.data = []) (hrun : decompressGzip input gz = .ok (0, gz')) :
    ∃ (h : GzHeader) (body : List UInt8) (blocks : List Block) (enc pad : List Bool),
      h.Valid false ∧ input = h.bytes ++ body ++ gzTrailer gz'.out.data ∧
      EncStream false 0 [] blocks enc ∧ byteBits body = enc ++ pad ∧
      gz'.out.data = streamBytes [] blocks ∧
      (pad.length < 8 → Member false input gz'.out.data) := by
  obtain ⟨-, hneg | ⟨-, h, body, blocks, enc, pad, hvalid, hinput, hstream, hbody, hdata⟩⟩ :=
    (decompressGzip_spec input gz hgz).of_run hrun
  · cases hneg
  · rw [hempty] at hstream hdata
    rw [List.nil_append] at hdata
    refine ⟨h, body, blocks, enc, pad, hvalid, hinput, hstream, hbody, hdata, ?_⟩
    intro hpad
    exact ⟨h, body, blocks, enc, pad, hvalid, hinput, hstream, hbody, hpad, hdata⟩

/-- A member with the data `test`. -/
def textMember : List UInt8 :=
  [0x1F, 0x8B, 8, 0, 0, 0, 0, 0, 0, 3, 1, 4, 0, 0xFB, 0xFF, 116, 101, 115, 116,
    0x0C, 0x7E, 0x7F, 0xD8, 4, 0, 0, 0]

theorem decompressGzip_member_text :
    ∃ (h : GzHeader) (body : List UInt8) (blocks : List Block) (enc pad : List Bool),
      h.Valid false ∧ textMember = h.bytes ++ body ++ gzTrailer [116, 101, 115, 116] ∧
      EncStream false 0 [] blocks enc ∧ byteBits body = enc ++ pad ∧
      [116, 101, 115, 116] = streamBytes [] blocks ∧
      (pad.length < 8 → Member false textMember [116, 101, 115, 116]) := by
  have hdata : gzData textMember = some [116, 101, 115, 116] := by decide +kernel
  obtain ⟨gz, hrun, hout⟩ := gzData_run hdata
  rw [← hout]
  exact decompressGzip_member textMember Gz.init gz Gz.init_ok rfl hrun

theorem Announced.none {mask : Nat} {f : Option (List UInt8)} (h : Announced 0 mask f) :
    f = none := by
  cases f with
  | none => rfl
  | some xs => exact absurd (Nat.zero_and mask) (h.mp rfl)

theorem gzTrailer_length (out : List UInt8) : (gzTrailer out).length = 8 := by
  simp [gzTrailer]

/-- A member without flags is ten bytes of header, the body and the trailer. -/
theorem Member.body {rfc : Bool} {out : List UInt8} (info body tail : List UInt8) (hinfo : info.length = 6)
    (htail : tail.length = 8)
    (h : Member rfc ([0x1F, 0x8B, 8, 0] ++ info ++ body ++ tail) out) :
    ∃ (blocks : List Block) (enc pad : List Bool), EncStream rfc 0 [] blocks enc ∧
      byteBits body = enc ++ pad ∧ pad.length < 8 := by
  obtain ⟨hd, body', blocks, enc, pad, hvalid, hinput, hstream, hbody, hpad, -⟩ := h
  obtain ⟨flg, info', extra, name, comment, hcrc⟩ := hd
  simp only [GzHeader.bytes, GzHeader.covered, List.cons_append, List.nil_append,
    List.cons.injEq, true_and] at hinput
  obtain ⟨rfl, hinput⟩ := hinput
  obtain rfl : extra = none := hvalid.extra.none
  obtain rfl : name = none := hvalid.name.none
  obtain rfl : comment = none := hvalid.comment.none
  obtain rfl : hcrc = none := hvalid.hcrc.none
  simp only [extraField, stringField, Option.getD_none, List.append_nil, List.append_assoc] at hinput
  obtain ⟨-, hinput⟩ := List.append_inj hinput (hinfo.trans hvalid.info.symm)
  obtain ⟨rfl, -⟩ := List.append_inj' hinput (by rw [htail, gzTrailer_length])
  exact ⟨blocks, enc, pad, hstream, hbody, hpad⟩

/-- A stream that begins with a final stored block of length zero ends after
its `NLEN`. -/
theorem EncStream.finalEmpty {blocks : List Block} {enc pad r : List Bool} (skip : List Bool)
    (h : EncStream true 0 [] blocks enc) (hskip : skip.length = 5)
    (hrest : enc ++ pad = true :: (field 2 0 ++ (skip ++ (field 16 0 ++ r)))) :
    r = field 16 65535 ++ pad := by
  cases h with
  | last _ _ b bits hb =>
    cases hb with
    | stored data skip' nlen hskip' hlen hnlen hrfc =>
      simp only [List.append_assoc, List.singleton_append] at hrest
      have hbits := List.append_cancel_left (List.cons.inj hrest).2
      obtain ⟨-, hbits⟩ := List.append_inj hbits (by omega)
      obtain ⟨hzero, hbits⟩ := List.append_inj hbits (by rw [field_length, field_length])
      have hvalue := congrArg value hzero
      rw [value_field, value_field, Nat.mod_eq_of_lt hlen] at hvalue
      obtain rfl : data = [] := List.eq_nil_of_length_eq_zero hvalue
      rw [← hbits, hrfc rfl]
      rfl
    | fixed toks ws => simp [field] at hrest
    | dynamic litLens distLens toks hs ws => simp [field] at hrest
  | more _ _ b bs bits rest' hb hbs =>
    cases hb <;> simp at hrest

def emptyMember : List UInt8 :=
  [0x1F, 0x8B, 8, 0, 0, 0, 0, 0, 0, 0xFF, 1, 0, 0, 0xFF, 0xFF, 0, 0, 0, 0, 0, 0, 0, 0]

/-- `emptyMember` with a wrong `NLEN`. -/
def wrongNlen : List UInt8 :=
  [0x1F, 0x8B, 8, 0, 0, 0, 0, 0, 0, 0xFF, 1, 0, 0, 0, 0, 0, 0, 0, 0, 0, 0, 0, 0]

/-- `emptyMember` without `NLEN`. -/
def missingNlen : List UInt8 :=
  [0x1F, 0x8B, 8, 0, 0, 0, 0, 0, 0, 0xFF, 1, 0, 0, 0, 0, 0, 0, 0, 0, 0, 0]

theorem decompressGzip_lenient :
    (gzData wrongNlen = some [] ∧ ¬ Member true wrongNlen []) ∧
      (gzData missingNlen = some [] ∧ ¬ Member true missingNlen []) ∧
      (gzData (emptyMember ++ emptyMember) = some [] ∧
        ¬ Member true (emptyMember ++ emptyMember) []) := by
  refine ⟨⟨by decide +kernel, ?_⟩, ⟨by decide +kernel, ?_⟩, by decide +kernel, ?_⟩
  · intro h
    obtain ⟨blocks, enc, pad, hstream, hbody, -⟩ :=
      Member.body [0, 0, 0, 0, 0, 0xFF] [1, 0, 0, 0, 0] [0, 0, 0, 0, 0, 0, 0, 0] rfl rfl h
    have hnlen := hstream.finalEmpty (r := List.replicate 16 false) (List.replicate 5 false) rfl
      (by rw [← hbody]; decide)
    cases hnlen
  · intro h
    obtain ⟨blocks, enc, pad, hstream, hbody, -⟩ :=
      Member.body [0, 0, 0, 0, 0, 0xFF] [1, 0, 0] [0, 0, 0, 0, 0, 0, 0, 0] rfl rfl h
    have hnlen := hstream.finalEmpty (r := []) (List.replicate 5 false) rfl
      (by rw [← hbody]; decide)
    cases hnlen
  · intro h
    obtain ⟨blocks, enc, pad, hstream, hbody, hpad⟩ :=
      Member.body [0, 0, 0, 0, 0, 0xFF] ([1, 0, 0, 0xFF, 0xFF, 0, 0, 0, 0, 0, 0, 0, 0] ++
        emptyMember.take 15) [0, 0, 0, 0, 0, 0, 0, 0] rfl rfl h
    have hnlen := hstream.finalEmpty (r := field 16 65535 ++ byteBits ([0, 0, 0, 0, 0, 0, 0, 0] ++
      emptyMember.take 15)) (List.replicate 5 false) rfl (by rw [← hbody]; decide +kernel)
    rw [← List.append_cancel_left hnlen] at hpad
    exact absurd hpad (by decide +kernel)

end Cage.Compress
