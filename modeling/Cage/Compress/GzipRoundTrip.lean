import Cage.Compress.DecompressCorrect
import Cage.Compress.InflateLocal

/-!
The other direction of `decompress_gzip` against RFC 1952: a header with any of
the optional fields, blocks that decode to some data, and the trailer of the
data are accepted, with that data.
-/

namespace Cage.Compress

open Lib.Bits Lib.Checked Lib.Crc Util

variable {σ : Type}

/-- A skipping function moves past `fld`. -/
def Passes (pre fld : List UInt8) (s : σ) (r : Option Nat) (s' : σ) : Prop :=
  s' = s ∧ r = some (pre ++ fld).length

theorem advance_fits {o n inLen : Nat} (h : o + n ≤ inLen) : advance o n inLen = some (o + n) :=
  if_neg (Nat.not_lt.mpr h)

theorem skipFextra_passes {p pre rest xs : List UInt8} (hp : p = pre ++ (extraField (some xs) ++ rest))
    (hxs : xs.length < 2 ^ 16) (s : σ) :
    Ends (skipFextra p p.length pre.length) s (Passes pre (extraField (some xs)) s) := by
  obtain ⟨lo, hi, htwo⟩ : ∃ lo hi, leBytes 2 xs.length = [lo, hi] := ⟨_, _, rfl⟩
  have hvalue : lo.toNat ||| (hi.toNat <<< 8) = xs.length := by
    rw [xlen_value, ← htwo, byteBits_leBytes, value_field, Nat.mod_eq_of_lt hxs]
  have hlen : p.length = pre.length + (2 + xs.length) + rest.length := by
    rw [hp, extraField, htwo]
    simp only [List.length_append, List.length_cons, List.length_nil]
    omega
  unfold skipFextra
  rw [if_neg (by omega)]
  apply Ends.load_bind (x := lo) (by rw [hp, extraField, htwo]; simp)
  apply Ends.load_bind (x := hi) (by rw [hp, extraField, htwo]; simp)
  rw [hvalue]
  refine Ends.pure ⟨rfl, (advance_fits (by omega)).trans (congrArg some ?_)⟩
  rw [extraField, htwo]
  simp only [List.length_append, List.length_cons, List.length_nil]

theorem skipStringLoop_passes {p str : List UInt8} (hstr : 0 ∉ str) {fuel : Nat}
    {pre rest : List UInt8} (hp : p = pre ++ (str ++ 0 :: rest)) (hfuel : str.length < fuel)
    (s : σ) :
    Ends (skipStringLoop p p.length fuel pre.length) s fun o s' =>
      s' = s ∧ o = (pre ++ str).length := by
  induction str generalizing fuel pre with
  | nil =>
    obtain ⟨fuel, rfl⟩ := Nat.exists_eq_succ_of_ne_zero (Nat.ne_of_gt hfuel)
    unfold skipStringLoop
    rw [if_pos (by rw [hp]; simp)]
    apply Ends.load_bind (x := 0) (by rw [hp]; simp)
    exact Ends.pure ⟨rfl, by rw [List.append_nil]⟩
  | cons c str ih =>
    obtain ⟨fuel, rfl⟩ := Nat.exists_eq_succ_of_ne_zero (Nat.ne_zero_of_lt hfuel)
    have hc : c ≠ 0 := (List.ne_of_not_mem_cons hstr).symm
    unfold skipStringLoop
    rw [if_pos (by rw [hp]; simp)]
    apply Ends.load_bind (x := c) (by rw [hp]; simp)
    rw [if_pos hc]
    have hp' : p = (pre ++ [c]) ++ (str ++ 0 :: rest) := by
      rw [hp]
      simp
    have hih := ih (List.not_mem_of_not_mem_cons hstr) hp' (Nat.lt_of_succ_lt_succ hfuel)
    rw [List.length_append, List.length_singleton] at hih
    refine hih.mono fun o s' ho => ⟨ho.1, ?_⟩
    rw [ho.2, List.append_assoc]
    rfl

theorem skipString_passes {p pre rest str : List UInt8}
    (hp : p = pre ++ (stringField (some str) ++ rest)) (hstr : 0 ∉ str) (s : σ) :
    Ends (skipString p p.length pre.length) s (Passes pre (stringField (some str)) s) := by
  have hp' : p = pre ++ (str ++ 0 :: rest) := by
    rw [hp, stringField, List.append_assoc]
    rfl
  have hlen : p.length = (pre ++ str).length + 1 + rest.length := by
    rw [hp']
    simp only [List.length_append, List.length_cons]
    omega
  have hfuel : str.length < p.length + 1 := by
    rw [hlen, List.length_append]
    omega
  apply Ends.bind (skipStringLoop_passes hstr hp' hfuel s)
  rintro o _ ⟨rfl, rfl⟩
  rw [if_neg (by omega)]
  refine Ends.pure ⟨rfl, congrArg some ?_⟩
  rw [stringField]
  simp only [List.length_append, List.length_singleton]
  omega

theorem skipStrings_passes {p : List UInt8} {flg : UInt8} {strFlags : List Nat}
    {strs : List (Option (List UInt8))} (hstrs : List.Forall₂ (StringOpt flg) strFlags strs)
    {pre rest : List UInt8} (hp : p = pre ++ (strs.flatMap stringField ++ rest)) (s : σ) :
    Ends (skipStrings p p.length flg.toNat strFlags pre.length) s
      (Passes pre (strs.flatMap stringField) s) := by
  induction hstrs generalizing pre with
  | nil => exact Ends.pure ⟨rfl, by rw [List.flatMap_nil, List.append_nil]⟩
  | @cons f str strFlags strs hstr hstrs ih =>
    obtain ⟨hannounced, hzero⟩ := hstr
    unfold skipStrings
    rw [List.flatMap_cons] at hp ⊢
    cases str with
    | none =>
      have hflag : ¬flg.toNat &&& f ≠ 0 := fun h => absurd (hannounced.mpr h) (by simp)
      rw [if_neg hflag]
      exact ih hp
    | some str =>
      rw [if_pos (hannounced.mp rfl)]
      rw [List.append_assoc] at hp
      apply Ends.bind (skipString_passes hp (hzero str rfl) s)
      rintro _ _ ⟨rfl, rfl⟩
      rw [← List.append_assoc] at hp
      refine (ih hp).mono fun r s' hr => ⟨hr.1, ?_⟩
      rw [hr.2, List.append_assoc]

theorem skipGzipTail_passes {p pre rest : List UInt8} {flg : UInt8}
    {name comment hcrc : Option (List UInt8)} (hname : StringOpt flg 0x08 name)
    (hcomment : StringOpt flg 0x10 comment) (hhcrc : Announced flg 0x02 hcrc)
    (hlen : ∀ c ∈ hcrc, c.length = 2)
    (hp : p = pre ++ (stringField name ++ stringField comment ++ hcrc.getD [] ++ rest)) (s : σ) :
    Ends (skipGzipTail p p.length pre.length flg.toNat) s
      (Passes pre (stringField name ++ stringField comment ++ hcrc.getD []) s) := by
  have hstrs : List.Forall₂ (StringOpt flg) [0x08, 0x10] [name, comment] :=
    .cons hname (.cons hcomment .nil)
  have hflat : [name, comment].flatMap stringField = stringField name ++ stringField comment := by
    rw [List.flatMap_cons, List.flatMap_cons, List.flatMap_nil, List.append_nil]
  have hp' : p = pre ++ ([name, comment].flatMap stringField ++ (hcrc.getD [] ++ rest)) := by
    rw [hp, hflat, List.append_assoc (stringField name ++ stringField comment)]
  apply Ends.bind (skipStrings_passes hstrs hp' s)
  rintro _ _ ⟨rfl, rfl⟩
  rw [hflat] at hp' ⊢
  cases hcrc with
  | none =>
    have hflag : ¬flg.toNat &&& 0x02 ≠ 0 := fun h => absurd (hhcrc.mpr h) (by simp)
    simp only [if_neg hflag]
    exact Ends.pure ⟨rfl, by rw [Option.getD_none, List.append_nil]⟩
  | some c =>
    have htwo := hlen c rfl
    have hroom : (pre ++ (stringField name ++ stringField comment)).length + 2 ≤ p.length := by
      rw [hp']
      simp only [List.length_append, Option.getD_some, htwo]
      omega
    simp only [if_pos (hhcrc.mp rfl)]
    refine Ends.pure ⟨rfl, (advance_fits hroom).trans (congrArg some ?_)⟩
    rw [Option.getD_some]
    simp only [List.length_append, htwo]
    omega

theorem skipGzipFlags_passes {p pre rest : List UInt8} {flg : UInt8}
    {extra name comment hcrc : Option (List UInt8)} (hextra : Announced flg 0x04 extra)
    (hxs : ∀ xs ∈ extra, xs.length < 2 ^ 16) (hname : StringOpt flg 0x08 name)
    (hcomment : StringOpt flg 0x10 comment) (hhcrc : Announced flg 0x02 hcrc)
    (hlen : ∀ c ∈ hcrc, c.length = 2)
    (hp : p = pre ++ (extraField extra ++
      (stringField name ++ stringField comment ++ hcrc.getD [] ++ rest))) (s : σ) :
    Ends (skipGzipFlags p p.length pre.length flg.toNat) s
      (Passes pre (extraField extra ++
        (stringField name ++ stringField comment ++ hcrc.getD [])) s) := by
  unfold skipGzipFlags
  cases extra with
  | none =>
    have hflag : ¬flg.toNat &&& 0x04 ≠ 0 := fun h => absurd (hextra.mpr h) (by simp)
    rw [if_neg hflag]
    exact skipGzipTail_passes hname hcomment hhcrc hlen hp s
  | some xs =>
    rw [if_pos (hextra.mp rfl)]
    apply Ends.bind (skipFextra_passes hp (hxs xs rfl) s)
    rintro _ s₁ ⟨rfl, rfl⟩
    rw [← List.append_assoc] at hp
    refine (skipGzipTail_passes hname hcomment hhcrc hlen hp s₁).mono fun r s' hr => ⟨hr.1, ?_⟩
    rw [hr.2, List.append_assoc]

/-- A header with enough behind it is skipped. -/
theorem skipGzipHeader_passes {h : GzHeader} (hvalid : h.Valid false) {rest : List UInt8}
    (hrest : 8 ≤ rest.length) (s : σ) :
    Ends (skipGzipHeader (h.bytes ++ rest) (h.bytes ++ rest).length) s
      (Passes [] h.bytes s) := by
  obtain ⟨flg, info, extra, name, comment, hcrc⟩ := h
  have hinfo : info.length = 6 := hvalid.info
  let pre : List UInt8 := [0x1F, 0x8B, 8, flg] ++ info
  let fld := extraField extra ++ (stringField name ++ stringField comment ++ hcrc.getD [])
  have hbytes : (GzHeader.mk flg info extra name comment hcrc).bytes = pre ++ fld := by
    simp only [GzHeader.bytes, GzHeader.covered, pre, fld, List.append_assoc]
  have hten : pre.length = 10 := by
    rw [List.length_append, hinfo]
    rfl
  have hmagic : Ends (checkGzipMagic (pre ++ fld ++ rest) (pre ++ fld ++ rest).length) s
      fun r s' => s' = s ∧ r = 0 := by
    unfold checkGzipMagic
    rw [if_neg (by rw [List.length_append, List.length_append, hten]; omega)]
    exact Ends.load_bind (x := 0x1F) rfl (Ends.load_bind (x := 0x8B) rfl
      (Ends.load_bind (x := 8) rfl (Ends.pure ⟨rfl, rfl⟩)))
  rw [hbytes]
  apply Ends.bind hmagic
  rintro _ s₁ ⟨rfl, rfl⟩
  apply Ends.load_bind (x := flg) rfl
  have hp : pre ++ fld ++ rest = pre ++ (extraField extra ++
      (stringField name ++ stringField comment ++ hcrc.getD [] ++ rest)) := by
    simp only [fld, List.append_assoc]
  have hflags := skipGzipFlags_passes hvalid.extra hvalid.extraLength
    ⟨hvalid.name, hvalid.nameBytes⟩ ⟨hvalid.comment, hvalid.commentBytes⟩ hvalid.hcrc
    hvalid.hcrcLength hp s₁
  rw [hten] at hflags
  apply Ends.bind hflags
  rintro _ _ ⟨rfl, rfl⟩
  dsimp only
  have hroom : ¬(pre ++ fld).length ≥ (pre ++ fld ++ rest).length := by
    rw [(pre ++ fld).length_append]
    omega
  rw [if_neg hroom]
  exact Ends.pure ⟨rfl, rfl⟩

/-- `inflate_block`, called until it marks a block as the last. -/
inductive Decoded : Sess → Sess → Prop where
  | last (s s' : Sess) (h : inflateBlock s = .ok (1, s')) : Decoded s s'
  | more (s t s' : Sess) (h : inflateBlock s = .ok (0, t)) (hrest : Decoded t s') : Decoded s s'

theorem Decoded.agree {s s' t : Sess} (h : Decoded s s') (hst : s.Agree t) :
    ∃ t', Decoded t t' ∧ s'.Agree t' := by
  induction h generalizing t with
  | last s s' h =>
    obtain ⟨t', hrun, hagree⟩ := inflateBlock_local s t hst _ _ h
    exact ⟨t', Decoded.last t t' hrun, hagree⟩
  | more s s₁ s' h _ ih =>
    obtain ⟨t₁, hrun, hagree⟩ := inflateBlock_local s t hst _ _ h
    obtain ⟨t', hdecoded, hagree'⟩ := ih hagree
    exact ⟨t', Decoded.more t t₁ t' hrun hdecoded, hagree'⟩

/-- The loop of `decompress_gzip` takes the blocks to the last. -/
theorem inflateLoop_decoded {s s' : Sess} (h : Decoded s s') (pos fuel : Nat) (hbr : s.br.Ok)
    (hout : s.out.Ok) (hpos : (pos + s.br.rest.length) % 8 = 0)
    (hfuel : s.br.rest.length < fuel) : inflateLoop fuel s = .ok (0, s') := by
  induction h generalizing pos fuel with
  | last s s' h =>
    obtain ⟨fuel, rfl⟩ := Nat.exists_eq_succ_of_ne_zero (Nat.ne_zero_of_lt hfuel)
    exact run_bind h
  | more s t s' h _ ih =>
    obtain ⟨fuel, rfl⟩ := Nat.exists_eq_succ_of_ne_zero (Nat.ne_zero_of_lt hfuel)
    obtain ⟨hnext, hneg | ⟨final, b, bits, -, henc, hrest, -⟩⟩ :=
      (inflateBlock_sound pos s hbr hout hpos).of_run h
    · cases hneg
    · have hlen : s.br.rest.length = bits.length + t.br.rest.length := by
        rw [hrest, List.length_append]
      have hge := henc.length_le
      have hloop := ih (pos + bits.length) fuel hnext.1 hnext.2.1 (by omega) (by omega)
      exact (run_bind h).trans hloop

/-- A stream is decoded block by block. -/
theorem EncStream.decoded {pos : Nat} {pre hist : List UInt8} {blocks : List Block}
    {enc tail : List Bool} (henc : EncStream true pos hist blocks enc) {s : Sess}
    (hbr : s.br.Ok) (hout : s.out.Ok) (hdata : s.out.data = pre ++ hist)
    (hpos : (pos + s.br.rest.length) % 8 = 0) (hrest : s.br.rest = enc ++ tail) :
    ∃ s', Decoded s s' ∧ s'.out.data = s.out.data ++ streamBytes hist blocks := by
  induction henc generalizing s with
  | last pos hist b bits hb =>
    obtain ⟨_, s', hrun, -, rfl, -, hdata'⟩ :=
      inflateBlock_complete pos pre hist true b bits tail hb s hbr hout hdata hpos hrest
    refine ⟨s', Decoded.last s s' hrun, ?_⟩
    rw [hdata', streamBytes, streamBytes, List.append_nil]
  | more pos hist b bs bits rest hb _ ih =>
    rw [List.append_assoc] at hrest
    obtain ⟨_, s₁, hrun, hnext, rfl, hrest₁, hdata₁⟩ :=
      inflateBlock_complete pos pre hist false b bits _ hb s hbr hout hdata hpos hrest
    have hlen : s.br.rest.length = bits.length + s₁.br.rest.length := by
      rw [hrest, hrest₁, List.length_append]
    have hdata₁' : s₁.out.data = pre ++ (hist ++ b.bytes hist) := by
      rw [hdata₁, hdata, List.append_assoc]
    obtain ⟨s', hdecoded, hdata'⟩ := ih hnext.1 hnext.2.1 hdata₁' (by omega) hrest₁
    refine ⟨s', Decoded.more s s₁ s' hrun hdecoded, ?_⟩
    rw [hdata', hdata₁, streamBytes, List.append_assoc]

/-- The trailer of the output is accepted. -/
theorem checkGzipTrailer_passes (pre : List UInt8) (gz : Gz) (hcrc : gz.crc.Ok) :
    Ends (checkGzipTrailer (pre ++ gzTrailer gz.out.data) (pre ++ gzTrailer gz.out.data).length
      pre.length) gz fun r gz' => r = 0 ∧ gz'.out = gz.out := by
  have hfour (v : Nat) : (leBytes 4 v).length = 4 := rfl
  have hvalue (v : Nat) : value (byteBits (leBytes 4 v)) = v % 2 ^ 32 := by
    rw [byteBits_leBytes, value_field]
  unfold checkGzipTrailer
  rw [if_neg (by rw [List.length_append, gzTrailer_length]; omega)]
  apply Ends.bind (read32le_spec _ (leBytes 4 (crc32 gz.out.data).toNat) pre
    (leBytes 4 gz.out.data.length) rfl (hfour _) gz)
  rintro expectedCrc gz₁ ⟨rfl, rfl⟩
  have hread := read32le_spec (pre ++ gzTrailer gz₁.out.data) (leBytes 4 gz₁.out.data.length)
    (pre ++ leBytes 4 (crc32 gz₁.out.data).toNat) []
    (by rw [List.append_nil, List.append_assoc]; rfl) (hfour _) gz₁
  rw [List.length_append, hfour] at hread
  apply Ends.bind hread
  rintro expectedLen gz₂ ⟨rfl, rfl⟩
  apply Ends.bind (Ends.onCrc (crc32Init_spec gz₂.crc hcrc))
  rintro _ gz₃ ⟨⟨hok₃, hready⟩, hout₃⟩
  apply Ends.get_bind
  apply Ends.bind (Ends.onCrc (crc32Update_spec 0 gz₃.out.data gz₃.out.data.length gz₃.crc hok₃
    hready (Nat.le_refl _)))
  rintro actualCrc gz₄ ⟨⟨-, hactual⟩, hout₄⟩
  have hcrc' : actualCrc = crc32 gz₂.out.data := by
    rw [hactual, List.take_length, hout₃]
    rfl
  rw [hcrc', hvalue, hvalue]
  have hsame : BitVec.ofNat 32 ((crc32 gz₂.out.data).toNat % 2 ^ 32) = crc32 gz₂.out.data := by
    apply BitVec.eq_of_toNat_eq
    rw [BitVec.toNat_ofNat, Nat.mod_mod, Nat.mod_eq_of_lt (crc32 gz₂.out.data).isLt]
  have hlen : BitVec.ofNat 32 (gz₂.out.data.length % 2 ^ 32) =
      BitVec.ofNat 32 gz₃.out.data.length := by
    apply BitVec.eq_of_toNat_eq
    rw [BitVec.toNat_ofNat, BitVec.toNat_ofNat, Nat.mod_mod, hout₃]
  rw [hsame, if_neg (not_not.mpr rfl), if_neg (not_not.mpr hlen)]
  exact Ends.pure ⟨rfl, hout₄.trans hout₃⟩

/-- A header with any of the optional fields, blocks that decode to `d`, padded
to a byte, and the trailer of `d` are accepted, and leave `d` in the buffer. -/
theorem decompressGzip_roundTrip (h : GzHeader) (hvalid : h.Valid false) (body d : List UInt8)
    (gz : Gz) (hgz : gz.Ok)
    (hbody : ∃ s', Decoded { br := brInit body body.length, out := gz.out } s' ∧
      s'.out.data = d) :
    Ends (decompressGzip (h.bytes ++ body ++ gzTrailer d)) gz fun r gz' =>
      r = 0 ∧ gz'.out.data = d := by
  obtain ⟨s', hdecoded, rfl⟩ := hbody
  have hlen : (h.bytes ++ body ++ gzTrailer s'.out.data).length =
      h.bytes.length + body.length + 8 := by
    rw [List.length_append, List.length_append, gzTrailer_length]
  have hrest : 8 ≤ (body ++ gzTrailer s'.out.data).length := by
    rw [List.length_append, gzTrailer_length]
    omega
  have hagree : Sess.Agree { br := brInit body body.length, out := gz.out }
      { br := brInit (body ++ gzTrailer s'.out.data) body.length, out := gz.out } :=
    ⟨⟨rfl, rfl, rfl, rfl, fun i hi => List.getElem?_append_left hi⟩, rfl⟩
  obtain ⟨t', hdecoded', -, hout⟩ := hdecoded.agree hagree
  have hbits : (brInit (body ++ gzTrailer s'.out.data) body.length).rest = byteBits body := by
    rw [brInit_rest, List.take_left]
  have hloop := inflateLoop_decoded hdecoded' 0
    (8 * (h.bytes ++ body ++ gzTrailer s'.out.data).length + 1)
    (brInit_ok _ _ (by rw [List.length_append]; omega)) hgz.out
    (by rw [hbits, byteBits_length]; omega) (by rw [hbits, byteBits_length, hlen]; omega)
  have hheader := skipGzipHeader_passes hvalid hrest gz
  rw [← List.append_assoc] at hheader
  apply Ends.bind hheader
  rintro _ gz₁ ⟨rfl, rfl⟩
  dsimp only
  rw [List.nil_append, if_neg (by omega), List.append_assoc h.bytes body, List.drop_left,
    ← List.append_assoc, hlen, Nat.add_sub_cancel]
  have hbody : h.bytes.length + body.length + 8 - h.bytes.length - 8 = body.length := by omega
  rw [hbody]
  have hrun : Ends (withBr (brInit (body ++ gzTrailer s'.out.data) body.length)
      (inflateLoop (8 * (h.bytes.length + body.length + 8) + 1))) gz₁
      fun r gz₂ => (r = 0 ∧ gz₂.out = s'.out) ∧ gz₂.crc = gz₁.crc := by
    rw [← hlen]
    exact Ends.withBr (q := fun r out => r = 0 ∧ out = s'.out) ⟨0, t', hloop, rfl, hout⟩
  apply Ends.bind hrun
  rintro _ gz₂ ⟨⟨rfl, hout₂⟩, hcrc₂⟩
  have htrailer := checkGzipTrailer_passes (h.bytes ++ body) gz₂ (by rw [hcrc₂]; exact hgz.crc)
  rw [hout₂, hlen, (h.bytes).length_append] at htrailer
  rw [if_neg (by decide)]
  exact htrailer.mono fun r gz₃ hr => ⟨hr.1, by rw [hr.2]⟩

/-- A header with all four of the optional fields. -/
def fullHeader : GzHeader where
  flg := 0x1E
  info := [0, 0, 0, 0, 0, 0xFF]
  extra := some [88]
  name := some [102]
  comment := some [99, 109, 116]
  hcrc := some [0x90, 0xC9]

theorem fullHeader_valid : fullHeader.Valid false where
  info := rfl
  extra := by
    unfold Announced
    decide
  extraLength := by decide
  name := by
    unfold Announced
    decide
  nameBytes := by decide
  comment := by
    unfold Announced
    decide
  commentBytes := by decide
  hcrc := by
    unfold Announced
    decide
  hcrcLength := by decide
  strict := nofun

/-- The stored block with the data `test`. -/
def storedText : List UInt8 := [1, 4, 0, 0xFB, 0xFF, 116, 101, 115, 116]

theorem decompressGzip_roundTrip_text :
    Ends (decompressGzip (fullHeader.bytes ++ storedText ++ gzTrailer [116, 101, 115, 116]))
      Gz.init fun r gz' => r = 0 ∧ gz'.out.data = [116, 101, 115, 116] := by
  have hrun : (inflateBlock { br := brInit storedText storedText.length, out := Buf.init }).map
      (fun r => (r.1, r.2.out.data)) = .ok (1, [116, 101, 115, 116]) := by decide +kernel
  refine decompressGzip_roundTrip fullHeader fullHeader_valid storedText _ Gz.init Gz.init_ok ?_
  cases hblock : inflateBlock { br := brInit storedText storedText.length, out := Buf.init } with
  | error e =>
    rw [hblock] at hrun
    cases hrun
  | ok r =>
    obtain ⟨last, s'⟩ := r
    rw [hblock] at hrun
    obtain ⟨rfl, hdata⟩ := Prod.mk.inj (Except.ok.inj hrun)
    exact ⟨s', Decoded.last _ s' hblock, hdata⟩

/-- Every member in the sense of RFC 1952 is accepted with its data. -/
theorem decompressGzip_accepts {input out : List UInt8} (hmember : Member true input out) (gz : Gz)
    (hgz : gz.Ok) (hempty : gz.out.data = []) :
    Ends (decompressGzip input) gz fun r gz' => r = 0 ∧ gz'.out.data = out := by
  obtain ⟨h, body, blocks, enc, pad, hvalid, rfl, hstream, hbody, -, hout⟩ := hmember
  have hvalid' : h.Valid false :=
    ⟨hvalid.info, hvalid.extra, hvalid.extraLength, hvalid.name, hvalid.nameBytes, hvalid.comment,
      hvalid.commentBytes, hvalid.hcrc, hvalid.hcrcLength, nofun⟩
  refine decompressGzip_roundTrip h hvalid' body out gz hgz ?_
  have hrest : (brInit body body.length).rest = enc ++ pad := by
    rw [brInit_rest, List.take_length, hbody]
  have hpos : (0 + (brInit body body.length).rest.length) % 8 = 0 := by
    rw [brInit_rest, List.take_length, byteBits_length]
    omega
  have hok : (brInit body body.length).Ok := brInit_ok _ _ (Nat.le_refl _)
  obtain ⟨s', hdecoded, hdata⟩ : ∃ s',
      Decoded { br := brInit body body.length, out := gz.out } s' ∧
        s'.out.data = gz.out.data ++ streamBytes [] blocks :=
    hstream.decoded hok hgz.out (hempty.trans (List.nil_append []).symm) hpos hrest
  refine ⟨s', hdecoded, ?_⟩
  rw [hdata, hout, hempty, List.nil_append]

end Cage.Compress
