import Cage.Compress.Inflate
import Cage.Compress.Deflate

/-!
One lemma for each part of the decoder that reads a bounded number of fields:
what it returns, what it consumes, and when it fails.
-/

namespace Cage.Compress

open Lib.Bits Lib.Checked Lib.Canonical Util

variable {σ : Type}

theorem Ends.onBr {α : Type} {m : Exec Br α} {s : Sess} {q : α → Br → Prop}
    (h : Ends m s.br q) : Ends (onBr m) s fun a s' => q a s'.br ∧ s'.out = s.out :=
  Ends.zoom (h.mono fun _ _ hq => ⟨hq, rfl⟩)

theorem Ends.onOut {α : Type} {m : Exec Buf α} {s : Sess} {q : α → Buf → Prop}
    (h : Ends m s.out q) : Ends (onOut m) s fun a s' => q a s'.out ∧ s'.br = s.br :=
  Ends.zoom (h.mono fun _ _ hq => ⟨hq, rfl⟩)

theorem lengthClasses_eq : lengthClasses = lenBase.zip lenExtra := rfl

theorem distanceClasses_eq : distanceClasses = distBase.zip distExtra := rfl

/-- The tail that `get_len` and `get_dist` share: the extra bits of a class. -/
theorem extra_spec (base extra : Nat) (he : extra ≤ 16) (br : Br) (h : br.Ok) :
    Ends (if extra ≤ 0 then pure (base : Int) else do
        let e ← brBits extra
        if e < 0 then pure (-1) else pure (base + e)) br fun r br' =>
      br'.Ok ∧ br.Same br' ∧
        ((∃ x, x.length = extra ∧ br.rest = x ++ br'.rest ∧ r = (base + value x : Nat)) ∨
          (br.rest.length < extra ∧ r = -1 ∧ br'.rest = br.rest)) := by
  by_cases hzero : extra ≤ 0
  · rw [if_pos hzero]
    exact Ends.pure ⟨h, Br.Same.refl br, Or.inl ⟨[], by simp; omega, rfl, by simp [value]⟩⟩
  · rw [if_neg hzero]
    apply Ends.bind (brBits_spec extra br h he)
    rintro e br' ⟨hok, hsame, ⟨x, hx, hrest, rfl⟩ | ⟨hshort, rfl, hrest⟩⟩
    · rw [if_neg (by omega)]
      exact Ends.pure ⟨hok, hsame, Or.inl ⟨x, hx, hrest, by simp⟩⟩
    · exact Ends.pure ⟨hok, hsame, Or.inr ⟨hshort, rfl, hrest⟩⟩

/-- `get_len` on symbol `257 + i`: the length of its class and extra bits, or
`-1` when there is no such class or too few bits. -/
theorem getLen_spec (i : Nat) (br : Br) (h : br.Ok) :
    Ends (getLen (257 + i)) br fun r br' => br'.Ok ∧ br.Same br' ∧
      ((∃ base extra x, lengthClasses[i]? = some (base, extra) ∧ x.length = extra ∧
          br.rest = x ++ br'.rest ∧ r = (base + value x : Nat)) ∨
        (r = -1 ∧ br'.rest = br.rest ∧
          ∀ base extra, lengthClasses[i]? = some (base, extra) → br.rest.length < extra)) := by
  have hslot : ((257 + i : Nat) : Int) - 257 = i := by omega
  unfold getLen
  simp only [hslot, Int.toNat_natCast]
  by_cases hi : i < 29
  · rw [if_neg (by omega)]
    obtain ⟨base, hbase⟩ : ∃ b, lenBase[i]? = some b := ⟨_, List.getElem?_eq_getElem hi⟩
    obtain ⟨extra, hextra⟩ : ∃ e, lenExtra[i]? = some e := ⟨_, List.getElem?_eq_getElem hi⟩
    have hclass : lengthClasses[i]? = some (base, extra) := by
      rw [lengthClasses_eq, List.getElem?_zip_eq_some]
      exact ⟨hbase, hextra⟩
    have he : extra ≤ 16 :=
      (by decide : ∀ e ∈ lenExtra, e ≤ 16) extra (List.mem_of_getElem? hextra)
    apply Ends.load_bind hbase
    apply Ends.load_bind hextra
    apply (extra_spec base extra he br h).mono
    rintro r br' ⟨hok, hsame, ⟨x, hx, hrest, hr⟩ | ⟨hshort, hr, hrest⟩⟩
    · exact ⟨hok, hsame, Or.inl ⟨base, extra, x, hclass, hx, hrest, hr⟩⟩
    · refine ⟨hok, hsame, Or.inr ⟨hr, hrest, ?_⟩⟩
      intro b e hbe
      rw [hclass] at hbe
      cases hbe
      exact hshort
  · rw [if_pos (by omega)]
    refine Ends.pure ⟨h, Br.Same.refl br, Or.inr ⟨rfl, rfl, ?_⟩⟩
    intro base extra hclass
    rw [List.getElem?_eq_none (by simp [lengthClasses]; omega)] at hclass
    cases hclass

/-- After the codeword of distance symbol `j`, `get_dist` returns the distance
of its class and extra bits, or fails for want of bits. -/
private theorem dist_extra_spec (j : Nat) (hj : j < 30) (br : Br) (h : br.Ok) :
    ∃ d e, distanceClasses[j]? = some (d, e) ∧
      Ends (do
        let d ← load distBase j
        let extra ← load distExtra j
        if extra ≤ 0 then pure (d : Int) else do
          let e ← brBits extra
          if e < 0 then pure (-1) else pure (d + e)) br fun r br' =>
        br'.Ok ∧ br.Same br' ∧
          ((∃ y, y.length = e ∧ br.rest = y ++ br'.rest ∧ r = (d + value y : Nat)) ∨
            (br.rest.length < e ∧ r = -1 ∧ br'.rest = br.rest)) := by
  obtain ⟨d, hd⟩ : ∃ b, distBase[j]? = some b := ⟨_, List.getElem?_eq_getElem hj⟩
  obtain ⟨e, he⟩ : ∃ e, distExtra[j]? = some e := ⟨_, List.getElem?_eq_getElem hj⟩
  refine ⟨d, e, ?_, ?_⟩
  · rw [distanceClasses_eq, List.getElem?_zip_eq_some]
    exact ⟨hd, he⟩
  · have hle : e ≤ 16 := (by decide : ∀ e ∈ distExtra, e ≤ 16) e (List.mem_of_getElem? he)
    apply Ends.load_bind hd
    apply Ends.load_bind he
    exact extra_spec d e hle br h

/-- A distance of 0 stands for the symbols 30 and 31, which name no class. -/
theorem getDist_sound (hd : Huff) (distLens : List Nat) (hh : hd.Holds distLens) (br : Br)
    (h : br.Ok) :
    Ends (getDist hd) br fun r br' => br'.Ok ∧ br.Same br' ∧ ∃ u, br.rest = u ++ br'.rest ∧
      (r = -1 ∨ r = 0 ∨ ∃ j d e v y, distanceClasses[j]? = some (d, e) ∧
        Codeword 15 distLens j v ∧ y.length = e ∧ u = v ++ y ∧ r = (d + value y : Nat)) := by
  apply Ends.bind (huffDecode_sound hd distLens hh br h)
  rintro sym br' ⟨hok, hsame, v, hrest, rfl | ⟨j, rfl, hv⟩⟩
  · exact Ends.pure ⟨hok, hsame, v, hrest, Or.inl rfl⟩
  · rw [if_neg (by omega)]
    by_cases hj : j < 30
    · rw [if_neg (by omega), Int.toNat_natCast]
      obtain ⟨d, e, hclass, hends⟩ := dist_extra_spec j hj br' hok
      apply hends.mono
      rintro r br'' ⟨hok', hsame', ⟨y, hy, hrest', hr⟩ | ⟨-, hr, hrest'⟩⟩
      · refine ⟨hok', hsame.trans hsame', v ++ y, by rw [hrest, hrest', List.append_assoc], ?_⟩
        exact Or.inr (Or.inr ⟨j, d, e, v, y, hclass, hv, hy, rfl, hr⟩)
      · exact ⟨hok', hsame.trans hsame', v, by rw [hrest, hrest'], Or.inl hr⟩
    · rw [if_pos (by omega)]
      exact Ends.pure ⟨hok, hsame, v, hrest, Or.inr (Or.inl rfl)⟩

theorem getDist_complete (hd : Huff) (distLens : List Nat) (hh : hd.Holds distLens) (j d e : Nat)
    (v y tail : List Bool) (br : Br) (h : br.Ok) (hclass : distanceClasses[j]? = some (d, e))
    (hv : Codeword 15 distLens j v) (hy : y.length = e) (hrest : br.rest = v ++ y ++ tail) :
    Ends (getDist hd) br fun r br' =>
      br'.Ok ∧ br.Same br' ∧ r = (d + value y : Nat) ∧ br'.rest = tail := by
  rw [List.append_assoc] at hrest
  apply Ends.bind (huffDecode_complete hd distLens hh j v (y ++ tail) br h hv hrest)
  rintro sym br' ⟨hok, hsame, rfl, hrest'⟩
  have hj : j < 30 := (List.getElem?_eq_some_iff.mp hclass).1
  rw [if_neg (by omega), if_neg (by omega), Int.toNat_natCast]
  obtain ⟨d', e', hclass', hends⟩ := dist_extra_spec j hj br' hok
  rw [hclass] at hclass'
  cases hclass'
  apply hends.mono
  rintro r br'' ⟨hok', hsame', ⟨x, hx, hx', hr⟩ | ⟨hshort, -, -⟩⟩
  · rw [hrest'] at hx'
    obtain ⟨rfl, htail⟩ := List.append_inj hx' (by omega)
    exact ⟨hok', hsame.trans hsame', hr, htail.symm⟩
  · rw [hrest', List.length_append] at hshort
    omega

/-- The byte that a copy of distance `d` appends after `j` bytes of its own. -/
theorem copy_next (hist : List UInt8) (d j : Nat) (hd : 1 ≤ d) (hdist : d ≤ hist.length) :
    (hist ++ (Token.copy j d).bytes hist)[hist.length + j - d]? =
      some (hist.getD (hist.length - d + j % d) 0) := by
  by_cases hj : j < d
  · have hlt : hist.length + j - d < hist.length := by omega
    rw [List.getElem?_append_left hlt, Nat.mod_eq_of_lt hj, List.getElem?_eq_getElem hlt,
      List.getD_eq_getElem?_getD, show hist.length - d + j = hist.length + j - d by omega,
      List.getElem?_eq_getElem hlt]
    rfl
  · have hmod : (j - d) % d = j % d := by rw [Nat.mod_eq_sub_mod (by omega : d ≤ j)]
    rw [List.getElem?_append_right (by omega),
      show hist.length + j - d - hist.length = j - d by omega]
    simp only [Token.bytes, List.getElem?_map]
    rw [List.getElem?_range (by omega), Option.map_some, hmod]

theorem copyLoop_spec (hist : List UInt8) (d k j : Nat) (b : Buf) (hd : 1 ≤ d)
    (hdist : d ≤ hist.length) (hb : b.data = hist ++ (Token.copy j d).bytes hist)
    (hcap : b.data.length + k ≤ b.cap) :
    Ends (copyLoop d k) b fun _ b' =>
      b'.Ok ∧ b'.data = hist ++ (Token.copy (j + k) d).bytes hist := by
  induction k generalizing j b with
  | zero => exact Ends.pure ⟨hcap, hb⟩
  | succ k ih =>
    have hlen : b.data.length = hist.length + j := by simp [hb, Token.bytes]
    have hnext := copy_next hist d j hd hdist
    rw [← hb, ← hlen] at hnext
    apply Ends.get_bind
    rw [if_pos (by omega)]
    apply Ends.load_bind hnext
    apply Ends.bind (bufPut_spec _ b (by omega))
    rintro _ b' ⟨hdata, hcap'⟩
    rw [show j + (k + 1) = j + 1 + k by omega]
    apply ih (j + 1) b'
    · rw [hdata, hb]
      simp [Token.bytes, List.range_succ]
    · rw [hdata, hcap', List.length_append, List.length_singleton]
      omega

/-- `copy_dist` appends a back-reference, or refuses it and changes nothing. -/
theorem copyDist_spec (n d : Int) (b : Buf) (h : b.Ok) :
    Ends (copyDist n d) b fun r b' => b'.Ok ∧
      ((r = 0 ∧ 3 ≤ n ∧ n ≤ 258 ∧ 1 ≤ d ∧ d ≤ b.data.length ∧
          b'.data = b.data ++ (Token.copy n.toNat d.toNat).bytes b.data) ∨
        (r = -1 ∧ ¬ (3 ≤ n ∧ n ≤ 258 ∧ 1 ≤ d ∧ d ≤ b.data.length))) := by
  unfold copyDist
  by_cases hn : n < 3 ∨ n > 258
  · rw [if_pos hn]
    exact Ends.pure ⟨h, Or.inr ⟨rfl, by omega⟩⟩
  · rw [if_neg hn]
    apply Ends.get_bind
    by_cases hd : d < 1 ∨ d > b.data.length
    · rw [if_pos hd]
      exact Ends.pure ⟨h, Or.inr ⟨rfl, by omega⟩⟩
    · rw [if_neg hd]
      apply Ends.bind (bufGrow_spec n.toNat b)
      rintro _ b' ⟨rfl, hdata, hcap⟩
      rw [if_neg (by omega)]
      apply Ends.bind (copyLoop_spec b.data d.toNat n.toNat 0 b' (by omega) (by omega)
        (by simp [hdata, Token.bytes]) (by rw [hdata]; exact hcap))
      rintro _ b'' ⟨hok, hout⟩
      rw [Nat.zero_add] at hout
      exact Ends.pure ⟨hok, Or.inl ⟨rfl, by omega, by omega, by omega, by omega, hout⟩⟩

theorem storedLoop_spec (k : Nat) (s : Sess) (hbr : s.br.Ok) (hout : s.out.Ok) :
    Ends (storedLoop k) s fun r s' => s'.br.Ok ∧ s'.out.Ok ∧ s.br.Same s'.br ∧
      ((r = 0 ∧ ∃ data : List UInt8, data.length = k ∧
          s.br.rest = byteBits data ++ s'.br.rest ∧ s'.out.data = s.out.data ++ data) ∨
        (r = -1 ∧ s.br.rest.length < 8 * k)) := by
  induction k generalizing s with
  | zero => exact Ends.pure ⟨hbr, hout, Br.Same.refl _, Or.inl ⟨rfl, [], by simp⟩⟩
  | succ k ih =>
    apply Ends.bind (Ends.onBr (brBits_spec 8 s.br hbr (by omega)))
    rintro b s₁ ⟨⟨hok, hsame, ⟨w, hw, hrest, rfl⟩ | ⟨hshort, rfl, hrest⟩⟩, hout₁⟩
    · rw [if_neg (by omega), Int.toNat_natCast]
      apply Ends.bind (Ends.onOut (bufAppendC_spec _ s₁.out))
      rintro _ s₂ ⟨⟨rfl, hok₂, hdata⟩, hbr₂⟩
      rw [if_neg (by omega)]
      have hbyte : field 8 (UInt8.ofNat (value w)).toNat = w := by
        rw [UInt8.toNat_ofNat', field_mod, ← hw, field_value]
      rw [← hbr₂] at hok hsame hrest
      apply (ih s₂ hok hok₂).mono
      rintro r s₃ ⟨hok₃, hout₃, hsame₃, ⟨rfl, data, hlen, hrest₃, hdata₃⟩ | ⟨rfl, hshort⟩⟩
      · refine ⟨hok₃, hout₃, hsame.trans hsame₃, Or.inl ⟨rfl,
          UInt8.ofNat (value w) :: data, by simp [hlen], ?_, ?_⟩⟩
        · rw [byteBits_cons, hbyte, hrest, hrest₃, List.append_assoc]
        · rw [hdata₃, hdata, hout₁, List.append_assoc]
          rfl
      · refine ⟨hok₃, hout₃, hsame.trans hsame₃, Or.inr ⟨rfl, ?_⟩⟩
        rw [hrest, List.length_append]
        omega
    · rw [if_pos (by omega)]
      rw [← hout₁] at hout
      exact Ends.pure ⟨hok, hout, hsame, Or.inr ⟨rfl, by omega⟩⟩

/-- `decode_stored`: padding to a byte boundary, `LEN`, sixteen bits that are
not looked at, and the bytes. Only an empty block can do without the sixteen
bits. -/
theorem decodeStored_sound (s : Sess) (hbr : s.br.Ok) (hout : s.out.Ok) :
    Ends decodeStored s fun r s' => s'.br.Ok ∧ s'.out.Ok ∧ s.br.Same s'.br ∧
      (r = -1 ∨ (r = 0 ∧ ∃ (data : List UInt8) (pad nlen : List Bool),
        pad.length = s.br.rest.length % 8 ∧ data.length < 2 ^ 16 ∧
        (nlen.length = 16 ∨ (data.length ≤ 1 ∧ nlen = [])) ∧
        s.br.rest = pad ++ field 16 data.length ++ nlen ++ byteBits data ++ s'.br.rest ∧
        s'.out.data = s.out.data ++ data)) := by
  apply Ends.bind (Ends.onBr (brAlign_spec s.br hbr))
  rintro _ s₁ ⟨⟨hok₁, hsame₁, hrest₁⟩, hout₁⟩
  have hpad : s.br.rest = s.br.rest.take (s.br.rest.length % 8) ++ s₁.br.rest := by
    rw [hrest₁, List.take_append_drop]
  have hpadlen : (s.br.rest.take (s.br.rest.length % 8)).length = s.br.rest.length % 8 := by
    rw [List.length_take]
    exact Nat.min_eq_left (Nat.mod_le _ _)
  generalize s.br.rest.take (s.br.rest.length % 8) = pad at hpad hpadlen
  apply Ends.bind (Ends.onBr (brBits_spec 16 s₁.br hok₁ (by omega)))
  rintro len s₂ ⟨⟨hok₂, hsame₂, hlen⟩, hout₂⟩
  apply Ends.bind (Ends.onBr (brBits_spec 16 s₂.br hok₂ (by omega)))
  rintro nlen s₃ ⟨⟨hok₃, hsame₃, hnlen⟩, hout₃⟩
  have hout' : s₃.out = s.out := by rw [hout₃, hout₂, hout₁]
  have hsame : s.br.Same s₃.br := (hsame₁.trans hsame₂).trans hsame₃
  rw [← hout'] at hout
  rcases hlen with ⟨w, hw, hrest₂, rfl⟩ | ⟨-, rfl, -⟩
  · rw [if_neg (by omega), Int.toNat_natCast]
    have hfield : field 16 (value w) = w := by rw [← hw, field_value]
    have hlt : value w < 2 ^ 16 := by rw [← hw]; exact value_lt w
    apply (storedLoop_spec (value w) s₃ hok₃ hout).mono
    rintro r s₄ ⟨hok₄, hout₄, hsame₄, ⟨rfl, data, hdata, hrest₄, hbytes⟩ | ⟨rfl, -⟩⟩
    · refine ⟨hok₄, hout₄, hsame.trans hsame₄, Or.inr ⟨rfl, data, pad, ?_⟩⟩
      rw [hout'] at hbytes
      rcases hnlen with ⟨v, hv, hrest₃, -⟩ | ⟨hshort, -, hrest₃⟩
      · refine ⟨v, hpadlen, by omega, Or.inl hv, ?_, hbytes⟩
        rw [hpad, hrest₂, hrest₃, hrest₄, hdata, hfield]
        simp only [List.append_assoc]
      · -- too few bits for `NLEN` are too few for two bytes
        have hone : data.length ≤ 1 := by
          rw [← hrest₃, hrest₄, List.length_append, byteBits_length] at hshort
          omega
        refine ⟨[], hpadlen, by omega, Or.inr ⟨hone, rfl⟩, ?_, hbytes⟩
        rw [hpad, hrest₂, ← hrest₃, hrest₄, hdata, hfield]
        simp only [List.append_assoc, List.nil_append]
    · exact ⟨hok₄, hout₄, hsame.trans hsame₄, Or.inl rfl⟩
  · rw [if_pos (by omega)]
    exact Ends.pure ⟨hok₃, hout, hsame, Or.inl rfl⟩

theorem decodeStored_complete (data : List UInt8) (pad nlen tail : List Bool) (s : Sess)
    (hbr : s.br.Ok) (hout : s.out.Ok) (hpad : pad.length = s.br.rest.length % 8)
    (hlen : data.length < 2 ^ 16) (hnlen : nlen.length = 16)
    (hrest : s.br.rest = pad ++ field 16 data.length ++ nlen ++ byteBits data ++ tail) :
    Ends decodeStored s fun r s' => s'.br.Ok ∧ s'.out.Ok ∧ s.br.Same s'.br ∧ r = 0 ∧
      s'.br.rest = tail ∧ s'.out.data = s.out.data ++ data := by
  simp only [List.append_assoc] at hrest
  apply Ends.bind (Ends.onBr (brAlign_spec s.br hbr))
  rintro _ s₁ ⟨⟨hok₁, hsame₁, hrest₁⟩, hout₁⟩
  rw [← hpad, hrest, List.drop_left] at hrest₁
  have hread := brBits_read (field 16 data.length) _ s₁.br hok₁ (by simp) hrest₁
  rw [field_length] at hread
  apply Ends.bind (Ends.onBr hread)
  rintro _ s₂ ⟨⟨hok₂, hsame₂, rfl, hrest₂⟩, hout₂⟩
  have hread' := brBits_read nlen _ s₂.br hok₂ (by omega) hrest₂
  rw [hnlen] at hread'
  apply Ends.bind (Ends.onBr hread')
  rintro _ s₃ ⟨⟨hok₃, hsame₃, -, hrest₃⟩, hout₃⟩
  have hout' : s₃.out = s.out := by rw [hout₃, hout₂, hout₁]
  rw [if_neg (by omega), Int.toNat_natCast, value_field, Nat.mod_eq_of_lt hlen]
  apply (storedLoop_spec data.length s₃ hok₃ (by rwa [hout'])).mono
  rintro r s₄ ⟨hok₄, hout₄, hsame₄, ⟨rfl, data', hdata, hrest₄, hbytes⟩ | ⟨-, hshort⟩⟩
  · rw [hrest₃] at hrest₄
    obtain ⟨hbits, htail⟩ := List.append_inj hrest₄ (by simp [hdata])
    have heq : data' = data := byteBits_inj hbits.symm
    refine ⟨hok₄, hout₄, ((hsame₁.trans hsame₂).trans hsame₃).trans hsame₄, rfl, htail.symm, ?_⟩
    rw [hbytes, hout', heq]
  · rw [hrest₃, List.length_append, byteBits_length] at hshort
    omega

end Cage.Compress
