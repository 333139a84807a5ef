import Cage.Compress.CodeLengths

/-!
`inflate_block` against the format: what it accepts is a block in the weak
sense of `EncBlock false`, and every valid stream is decoded exactly.
-/

namespace Cage.Compress

open Lib.Bits Lib.Checked Lib.Canonical Util

variable {σ : Type}

/-- The state a decoding step may leave behind. -/
def Sess.Next (s s' : Sess) : Prop := s'.br.Ok ∧ s'.out.Ok ∧ s.br.Same s'.br

theorem Sess.Next.trans {a b c : Sess} (h : a.Next b) (h' : b.Next c) : a.Next c :=
  ⟨h'.1, h'.2.1, h.2.2.trans h'.2.2⟩

/-- One symbol: a literal or a back-reference appends its bytes, symbol 256
ends the block. -/
theorem doSym_sound (hd : Huff) (litLens distLens : List Nat) (hh : hd.Holds distLens)
    (sym : Nat) (w : List Bool) (hw : Codeword 15 litLens sym w) (s : Sess) (hbr : s.br.Ok)
    (hout : s.out.Ok) :
    Ends (doSym hd sym) s fun r s' => s.Next s' ∧
      (r = -1 ∨ (r = 1 ∧ sym = 256 ∧ s' = s) ∨ (r = 0 ∧ ∃ (t : Token) (u : List Bool),
        s.br.rest = u ++ s'.br.rest ∧ EncToken litLens distLens t (w ++ u) ∧
        t.Valid s.out.data ∧ s'.out.data = s.out.data ++ t.bytes s.out.data)) := by
  unfold doSym
  by_cases hlit : sym < 256
  · rw [if_pos hlit]
    have hbyte : (UInt8.ofNat sym).toNat = sym := by
      rw [UInt8.toNat_ofNat']
      exact Nat.mod_eq_of_lt hlit
    apply Ends.bind (Ends.onOut (bufAppendC_spec _ s.out))
    rintro _ s₁ ⟨⟨rfl, hok, hdata⟩, hbr₁⟩
    rw [if_neg (by omega)]
    refine Ends.pure ⟨⟨by rwa [hbr₁], hok, by rw [hbr₁]; exact Br.Same.refl _⟩, Or.inr (Or.inr
      ⟨rfl, .lit (UInt8.ofNat sym), [], by rw [hbr₁]; rfl, ?_, trivial, hdata⟩)⟩
    rw [List.append_nil]
    exact EncToken.lit _ w (by rwa [hbyte])
  · rw [if_neg hlit]
    by_cases hcopy : sym > 256
    · rw [if_pos hcopy]
      obtain ⟨i, rfl⟩ : ∃ i, sym = 257 + i := ⟨sym - 257, by omega⟩
      apply Ends.bind (Ends.onBr (getLen_spec i s.br hbr))
      rintro n s₁ ⟨⟨hok₁, hsame₁, hn⟩, hout₁⟩
      rcases hn with ⟨base, extra, x, hclass, hx, hrest₁, rfl⟩ | ⟨rfl, -, -⟩
      · rw [if_neg (by omega)]
        apply Ends.bind (Ends.onBr (getDist_sound hd distLens hh s₁.br hok₁))
        rintro d s₂ ⟨⟨hok₂, hsame₂, u, hrest₂, hd⟩, hout₂⟩
        have hout' : s₂.out = s.out := by rw [hout₂, hout₁]
        have hnext : s.Next s₂ := ⟨hok₂, by rwa [hout'], hsame₁.trans hsame₂⟩
        rcases hd with rfl | hd
        · exact Ends.pure ⟨hnext, Or.inl rfl⟩
        · have hpos : ¬ d < 0 := by
            rcases hd with rfl | ⟨j, b, e, v, y, -, -, -, -, rfl⟩ <;> omega
          rw [if_neg hpos]
          apply (Ends.onOut (copyDist_spec _ d s₂.out hnext.2.1)).mono
          rintro r s₃ ⟨⟨hok₃, ⟨rfl, -, -, hlow, hhigh, hdata⟩ | ⟨rfl, -⟩⟩, hbr₃⟩
          · rcases hd with rfl | ⟨j, b, e, v, y, hclass', hv, hy, rfl, rfl⟩
            · omega
            · refine ⟨⟨by rwa [hbr₃], hok₃, by rw [hbr₃]; exact hnext.2.2⟩,
                Or.inr (Or.inr ⟨rfl, .copy (base + value x) (b + value y), x ++ v ++ y, ?_, ?_, ?_, ?_⟩)⟩
              · rw [hbr₃, hrest₁, hrest₂]
                simp only [List.append_assoc]
              · have henc := EncToken.copy i j base extra b e w x v y hclass hw hx hclass' hv hy
                simpa only [List.append_assoc] using henc
              · rw [← hout']
                exact ⟨by omega, by omega⟩
              · rw [← hout']
                simpa only [Int.toNat_natCast] using hdata
          · exact ⟨⟨by rwa [hbr₃], hok₃, by rw [hbr₃]; exact hnext.2.2⟩, Or.inl rfl⟩
      · rw [if_pos (by omega)]
        exact Ends.pure ⟨⟨hok₁, by rwa [hout₁], hsame₁⟩, Or.inl rfl⟩
    · rw [if_neg hcopy]
      exact Ends.pure ⟨⟨hbr, hout, Br.Same.refl _⟩, Or.inr (Or.inl ⟨rfl, by omega, rfl⟩)⟩

theorem runLoopFrom_sound (hl hd : Huff) (litLens distLens : List Nat) (hhl : hl.Holds litLens)
    (hhd : hd.Holds distLens) (last : Int) (fuel : Nat) (s : Sess) (hbr : s.br.Ok)
    (hout : s.out.Ok) (hfuel : s.br.rest.length < fuel) :
    Ends (runLoopFrom hl hd last fuel) s fun r s' => s.Next s' ∧
      (r = -1 ∨ (r = last ∧ ∃ (toks : List Token) (ws : List Bool),
        s.br.rest = ws ++ s'.br.rest ∧ EncTokens litLens distLens s.out.data toks ws ∧
        s'.out.data = s.out.data ++ tokensBytes s.out.data toks)) := by
  induction fuel generalizing s with
  | zero => omega
  | succ fuel ih =>
    apply Ends.bind (Ends.onBr (huffDecode_sound hl litLens hhl s.br hbr))
    rintro r s₁ ⟨⟨hok₁, hsame₁, w, hrest₁, rfl | ⟨sym, rfl, hw⟩⟩, hout₁⟩
    · exact Ends.pure ⟨⟨hok₁, by rwa [hout₁], hsame₁⟩, Or.inl rfl⟩
    · rw [if_neg (by omega), Int.toNat_natCast]
      apply Ends.bind (doSym_sound hd litLens distLens hhd sym w hw s₁ hok₁ (by rwa [hout₁]))
      have hnext₁ : s.Next s₁ := ⟨hok₁, by rwa [hout₁], hsame₁⟩
      rintro ret s₂ ⟨hnext₂, rfl | ⟨rfl, rfl, rfl⟩ | ⟨rfl, t, u, hrest₂, henc, hvalid, hdata₂⟩⟩
      · exact Ends.pure ⟨hnext₁.trans hnext₂, Or.inl rfl⟩
      · refine Ends.pure ⟨hnext₁, Or.inr ⟨rfl, [], w, hrest₁, EncTokens.nil _ w hw, ?_⟩⟩
        rw [hout₁, tokensBytes, List.append_nil]
      · rw [if_neg (by omega), if_neg (by omega)]
        rw [hout₁] at hvalid hdata₂
        have hpos := hw.pos
        have hlen : s.br.rest.length = w.length + (u.length + s₂.br.rest.length) := by
          rw [hrest₁, hrest₂, List.length_append, List.length_append]
        apply (ih s₂ hnext₂.1 hnext₂.2.1 (by omega)).mono
        rintro r s₃ ⟨hnext₃, rfl | ⟨rfl, toks, ws, hrest₃, htoks, hdata₃⟩⟩
        · exact ⟨(hnext₁.trans hnext₂).trans hnext₃, Or.inl rfl⟩
        · rw [hdata₂] at htoks hdata₃
          refine ⟨(hnext₁.trans hnext₂).trans hnext₃, Or.inr ⟨rfl, t :: toks, w ++ u ++ ws, ?_,
            EncTokens.cons _ t toks _ ws henc hvalid htoks, ?_⟩⟩
          · rw [hrest₁, hrest₂, hrest₃]
            simp only [List.append_assoc]
          · rw [hdata₃, tokensBytes, List.append_assoc]

/-- The loop reads a bit in every round, so the bits left suffice as fuel. -/
theorem runLoop_sound (hl hd : Huff) (litLens distLens : List Nat) (hhl : hl.Holds litLens)
    (hhd : hd.Holds distLens) (last : Int) (s : Sess) (hbr : s.br.Ok) (hout : s.out.Ok) :
    Ends (runLoop hl hd last) s fun r s' => s.Next s' ∧
      (r = -1 ∨ (r = last ∧ ∃ (toks : List Token) (ws : List Bool),
        s.br.rest = ws ++ s'.br.rest ∧ EncTokens litLens distLens s.out.data toks ws ∧
        s'.out.data = s.out.data ++ tokensBytes s.out.data toks)) := by
  apply Ends.get_bind
  apply runLoopFrom_sound hl hd litLens distLens hhl hhd last _ s hbr hout
  rw [s.br.rest_length hbr]
  omega

/-- A length lies between 3 and 258. -/
theorem lengthClass_bounds {i base extra : Nat} (h : lengthClasses[i]? = some (base, extra))
    (x : List Bool) (hx : x.length = extra) : 3 ≤ base + value x ∧ base + value x ≤ 258 := by
  have hall : ∀ c ∈ lengthClasses, 3 ≤ c.1 ∧ c.1 + 2 ^ c.2 ≤ 259 := by decide
  have hclass := hall _ (List.mem_of_getElem? h)
  have hlt := value_lt x
  rw [hx] at hlt
  simp only at hclass
  omega

/-- The code of a token is that of its symbol and what `do_sym` then reads. -/
theorem doSym_token (hd : Huff) (litLens distLens : List Nat) (hh : hd.Holds distLens)
    (t : Token) (ws tail : List Bool) (henc : EncToken litLens distLens t ws) :
    ∃ (sym : Nat) (w u : List Bool), Codeword 15 litLens sym w ∧ ws = w ++ u ∧
      ∀ s : Sess, s.br.Ok → s.out.Ok → t.Valid s.out.data → s.br.rest = u ++ tail →
        Ends (doSym hd sym) s fun r s' => s.Next s' ∧ r = 0 ∧ s'.br.rest = tail ∧
          s'.out.data = s.out.data ++ t.bytes s.out.data := by
  cases henc with
  | lit b w hw =>
    refine ⟨b.toNat, ws, [], hw, (List.append_nil ws).symm, ?_⟩
    intro s hbr hout hvalid hrest
    unfold doSym
    rw [if_pos b.toNat_lt]
    apply Ends.bind (Ends.onOut (bufAppendC_spec _ s.out))
    rintro _ s₁ ⟨⟨rfl, hok, hdata⟩, hbr₁⟩
    rw [UInt8.ofNat_toNat] at hdata
    exact Ends.pure ⟨⟨by rwa [hbr₁], hok, by rw [hbr₁]; exact Br.Same.refl _⟩, rfl,
      by rw [hbr₁]; exact hrest, hdata⟩
  | copy i j base extra dbase dextra w x v y hl hw hx hd' hv hy =>
    refine ⟨257 + i, w, x ++ v ++ y, hw, by simp only [List.append_assoc], ?_⟩
    intro s hbr hout hvalid hrest
    unfold doSym
    rw [if_neg (by omega), if_pos (by omega)]
    apply Ends.bind (Ends.onBr (getLen_spec i s.br hbr))
    rintro n s₁ ⟨⟨hok₁, hsame₁, hn⟩, hout₁⟩
    simp only [List.append_assoc] at hrest
    rcases hn with ⟨base', extra', x', hclass, hx', hrest₁, rfl⟩ | ⟨-, -, hfail⟩
    · rw [hl] at hclass
      cases hclass
      rw [hrest] at hrest₁
      obtain ⟨rfl, htail₁⟩ := List.append_inj hrest₁ (by omega)
      rw [if_neg (by omega)]
      apply Ends.bind (Ends.onBr (getDist_complete hd distLens hh j dbase dextra v y tail s₁.br hok₁
        hd' hv hy (by rw [← htail₁, List.append_assoc])))
      rintro d s₂ ⟨⟨hok₂, hsame₂, rfl, hrest₂⟩, hout₂⟩
      have hout' : s₂.out = s.out := by rw [hout₂, hout₁]
      rw [if_neg (by omega)]
      apply (Ends.onOut (copyDist_spec _ _ s₂.out (by rwa [hout']))).mono
      rintro r s₃ ⟨⟨hok₃, ⟨rfl, -, -, -, -, hdata⟩ | ⟨-, hneg⟩⟩, hbr₃⟩
      · refine ⟨⟨by rwa [hbr₃], hok₃, by rw [hbr₃]; exact hsame₁.trans hsame₂⟩, rfl,
          by rw [hbr₃]; exact hrest₂, ?_⟩
        rw [← hout']
        simpa only [Int.toNat_natCast] using hdata
      · exfalso
        apply hneg
        obtain ⟨hd1, hd2⟩ := hvalid
        rw [hout']
        have hlen := lengthClass_bounds hl x hx
        omega
    · have := hfail base extra hl
      rw [hrest, List.length_append] at this
      omega

theorem Token.Valid.prepend {t : Token} {hist : List UInt8} (h : t.Valid hist)
    (pre : List UInt8) : t.Valid (pre ++ hist) := by
  cases t with
  | lit b => trivial
  | copy n d =>
    refine ⟨h.1, ?_⟩
    rw [List.length_append]
    exact Nat.le_trans h.2 (Nat.le_add_left _ _)

/-- A back-reference that stays inside `hist` does not see what is before. -/
theorem Token.bytes_prepend {t : Token} {hist : List UInt8} (h : t.Valid hist)
    (pre : List UInt8) : t.bytes (pre ++ hist) = t.bytes hist := by
  cases t with
  | lit b => rfl
  | copy n d =>
    obtain ⟨hd, hle⟩ := h
    apply List.map_congr_left
    intro i _
    have hmod : i % d < d := Nat.mod_lt _ hd
    rw [List.length_append, List.getD_append_right _ _ _ _ (by omega)]
    congr 1
    omega

theorem runLoopFrom_complete (hl hd : Huff) (litLens distLens : List Nat)
    (hhl : hl.Holds litLens) (hhd : hd.Holds distLens) (last : Int) (pre hist : List UInt8)
    (toks : List Token) (ws tail : List Bool) (henc : EncTokens litLens distLens hist toks ws)
    (fuel : Nat) (s : Sess) (hbr : s.br.Ok) (hout : s.out.Ok) (hdata : s.out.data = pre ++ hist)
    (hrest : s.br.rest = ws ++ tail) (hfuel : s.br.rest.length < fuel) :
    Ends (runLoopFrom hl hd last fuel) s fun r s' => s.Next s' ∧ r = last ∧
      s'.br.rest = tail ∧ s'.out.data = s.out.data ++ tokensBytes hist toks := by
  induction henc generalizing fuel s with
  | nil hist w hw =>
    obtain ⟨fuel, rfl⟩ : ∃ k, fuel = k + 1 := ⟨fuel - 1, by omega⟩
    apply Ends.bind (Ends.onBr (huffDecode_complete hl litLens hhl 256 w tail s.br hbr hw hrest))
    rintro r s₁ ⟨⟨hok₁, hsame₁, rfl, hrest₁⟩, hout₁⟩
    rw [if_neg (by omega), Int.toNat_natCast]
    have hend : Ends (doSym hd 256) s₁ fun r s' => r = 1 ∧ s' = s₁ := by
      unfold doSym
      rw [if_neg (by omega), if_neg (by omega)]
      exact Ends.pure ⟨rfl, rfl⟩
    apply Ends.bind hend
    rintro _ s₂ ⟨rfl, rfl⟩
    rw [if_neg (by omega), if_pos (by omega)]
    refine Ends.pure ⟨⟨hok₁, by rwa [hout₁], hsame₁⟩, rfl, hrest₁, ?_⟩
    rw [hout₁, tokensBytes, List.append_nil]
  | cons hist t toks w ws ht hvalid _ ih =>
    obtain ⟨fuel, rfl⟩ : ∃ k, fuel = k + 1 := ⟨fuel - 1, by omega⟩
    obtain ⟨sym, v, u, hv, rfl, hsym⟩ := doSym_token hd litLens distLens hhd t w (ws ++ tail) ht
    rw [List.append_assoc, List.append_assoc] at hrest
    apply Ends.bind (Ends.onBr (huffDecode_complete hl litLens hhl sym v _ s.br hbr hv hrest))
    rintro r s₁ ⟨⟨hok₁, hsame₁, rfl, hrest₁⟩, hout₁⟩
    rw [if_neg (by omega), Int.toNat_natCast]
    have hnext₁ : s.Next s₁ := ⟨hok₁, by rwa [hout₁], hsame₁⟩
    apply Ends.bind (hsym s₁ hok₁ hnext₁.2.1 (by rw [hout₁, hdata]; exact hvalid.prepend pre) hrest₁)
    rintro ret s₂ ⟨hnext₂, rfl, hrest₂, hdata₂⟩
    rw [if_neg (by omega), if_neg (by omega)]
    have hpos := hv.pos
    have hlen : s.br.rest.length = v.length + (u.length + s₂.br.rest.length) := by
      rw [hrest, hrest₂, List.length_append, List.length_append]
    rw [hout₁, hdata, Token.bytes_prepend hvalid] at hdata₂
    apply (ih fuel s₂ hnext₂.1 hnext₂.2.1 (by rw [hdata₂, List.append_assoc]) hrest₂ (by omega)).mono
    rintro r s₃ ⟨hnext₃, rfl, hrest₃, hdata₃⟩
    refine ⟨(hnext₁.trans hnext₂).trans hnext₃, rfl, hrest₃, ?_⟩
    rw [hdata₃, hdata₂, hdata, tokensBytes, List.append_assoc]

theorem runLoop_complete (hl hd : Huff) (litLens distLens : List Nat) (hhl : hl.Holds litLens)
    (hhd : hd.Holds distLens) (last : Int) (pre hist : List UInt8) (toks : List Token)
    (ws tail : List Bool) (henc : EncTokens litLens distLens hist toks ws) (s : Sess)
    (hbr : s.br.Ok) (hout : s.out.Ok) (hdata : s.out.data = pre ++ hist)
    (hrest : s.br.rest = ws ++ tail) :
    Ends (runLoop hl hd last) s fun r s' => s.Next s' ∧ r = last ∧ s'.br.rest = tail ∧
      s'.out.data = s.out.data ++ tokensBytes hist toks := by
  apply Ends.get_bind
  apply runLoopFrom_complete hl hd litLens distLens hhl hhd last pre hist toks ws tail henc _ s hbr
    hout hdata hrest
  rw [s.br.rest_length hbr]
  omega

/-- Filling the `k` entries behind those already filled. -/
private theorem fill_next (acc lit : List Nat) (i k x : Nat) (s : σ) (hacc : acc.length = i)
    (hk : k ≤ lit.length) :
    Ends (loopUp (fun j xs => store xs j x) k i (acc ++ lit)) s fun ys s' => s' = s ∧
      ys = acc ++ List.replicate k x ++ lit.drop k := by
  apply (Ends.loopUp_fill (by rw [List.length_append]; omega)).mono
  rintro ys s' ⟨rfl, rfl⟩
  refine ⟨rfl, ?_⟩
  rw [← hacc, List.take_left, List.drop_append, List.drop_eq_nil_of_le (by omega),
    List.nil_append, Nat.add_sub_cancel_left]

theorem fixedHuff_spec (lit dst : List Nat) (hlit : lit.length = 320) (hdst : dst.length = 32)
    (s : σ) :
    Ends (fixedHuff lit dst) s fun p s' => s' = s ∧ p.1 = fixedLitLens ++ lit.drop 288 ∧
      p.2 = fixedDistLens := by
  have hlens : ∀ n, (lit.drop n).length = 320 - n := by
    intro n
    rw [List.length_drop, hlit]
  apply Ends.bind (fill_next [] lit 0 144 8 s rfl (by omega))
  rintro lit₁ s₁ ⟨rfl, rfl⟩
  apply Ends.bind (fill_next _ _ 144 112 9 s₁ (by rw [List.nil_append, List.length_replicate])
    (by rw [hlens]; omega))
  rintro lit₂ s₂ ⟨rfl, rfl⟩
  rw [List.drop_drop]
  apply Ends.bind (fill_next _ _ 256 24 7 s₂
    (by simp only [List.nil_append, List.length_append, List.length_replicate])
    (by rw [hlens]; omega))
  rintro lit₃ s₃ ⟨rfl, rfl⟩
  rw [List.drop_drop]
  apply Ends.bind (fill_next _ _ 280 8 8 s₃
    (by simp only [List.nil_append, List.length_append, List.length_replicate])
    (by rw [hlens]; omega))
  rintro lit₄ s₄ ⟨rfl, rfl⟩
  rw [List.drop_drop]
  apply Ends.bind (fill_next [] dst 0 32 5 s₄ rfl (by omega))
  rintro dst₁ s₅ ⟨rfl, rfl⟩
  have hrest : dst.drop 32 = [] := List.drop_eq_nil_of_le (by omega)
  rw [hrest]
  exact Ends.pure ⟨rfl, rfl, rfl⟩

theorem buildFixed_spec (lit dst : List Nat) (hlit : lit.length = 320) (hdst : dst.length = 32)
    (s : σ) :
    Ends (buildFixed lit dst) s fun p s' => s' = s ∧ p.1.Holds fixedLitLens ∧
      p.2.Holds fixedDistLens := by
  apply Ends.bind (fixedHuff_spec lit dst hlit hdst s)
  rintro ⟨_, _⟩ s₁ ⟨rfl, rfl, rfl⟩
  have hfixed : fixedLitLens.length = 288 := by
    simp only [fixedLitLens, List.length_append, List.length_replicate]
  apply Ends.bind (huffBuild_spec (fixedLitLens ++ lit.drop 288) 288 s₁
    (by rw [List.length_append, hfixed]; omega) (by omega))
  rintro hl s₂ ⟨rfl, hhl⟩
  apply Ends.bind (huffBuild_spec fixedDistLens 32 s₂ (by decide) (by omega))
  rintro hd s₃ ⟨rfl, hhd⟩
  rw [List.take_left' hfixed] at hhl
  rw [List.take_of_length_le (by decide)] at hhd
  exact Ends.pure ⟨rfl, hhl, hhd⟩

/-- The position of the reader is known modulo 8, as that of the stream is. -/
theorem inflateBlock_sound (pos : Nat) (s : Sess) (hbr : s.br.Ok) (hout : s.out.Ok)
    (hpos : (pos + s.br.rest.length) % 8 = 0) :
    Ends inflateBlock s fun r s' => s.Next s' ∧
      (r = -1 ∨ ∃ (final : Bool) (b : Block) (bits : List Bool), r = final.toNat ∧
        EncBlock false pos s.out.data final b bits ∧ s.br.rest = bits ++ s'.br.rest ∧
        s'.out.data = s.out.data ++ b.bytes s.out.data) := by
  apply Ends.bind (Ends.onBr (brBits_one s.br hbr))
  rintro last s₁ ⟨⟨hok₁, hsame₁, hlast⟩, hout₁⟩
  apply Ends.bind (Ends.onBr (brBits_spec 2 s₁.br hok₁ (by omega)))
  rintro type s₂ ⟨⟨hok₂, hsame₂, htype⟩, hout₂⟩
  have hout' : s₂.out = s.out := by rw [hout₂, hout₁]
  have hnext₂ : s.Next s₂ := ⟨hok₂, by rwa [hout'], hsame₁.trans hsame₂⟩
  rcases htype with ⟨ty, hty, hrest₂, rfl⟩ | ⟨-, rfl, -⟩
  · rcases hlast with ⟨final, hrest₁, rfl⟩ | ⟨hnil, -, hnil₁⟩
    · have hrest : s.br.rest = [final] ++ ty ++ s₂.br.rest := by
        rw [hrest₁, hrest₂]
        rfl
      have hfield : field 2 (value ty) = ty := by rw [← hty, field_value]
      by_cases hbig : value ty > 2
      · rw [if_pos (by omega)]
        exact Ends.pure ⟨hnext₂, Or.inl rfl⟩
      · rw [if_neg (by omega)]
        by_cases hstored : value ty = 0
        · rw [if_pos (by omega)]
          rw [hstored] at hfield
          apply Ends.bind (decodeStored_sound s₂ hok₂ hnext₂.2.1)
          rintro r s₃ ⟨hok₃, hout₃, hsame₃, rfl | ⟨rfl, data, pad, nlen, hpad, hlt, hnlen, hrest₃, hdata⟩⟩
          · rw [if_pos (by omega)]
            exact Ends.pure ⟨⟨hok₃, hout₃, hnext₂.2.2.trans hsame₃⟩, Or.inl rfl⟩
          · rw [if_neg (by omega)]
            have hlen : s.br.rest.length = 3 + s₂.br.rest.length := by
              rw [hrest]
              simp only [List.length_append, List.length_singleton, hty]
            refine Ends.pure ⟨⟨hok₃, hout₃, hnext₂.2.2.trans hsame₃⟩, Or.inr ⟨final, .stored data,
              _, rfl, EncBlock.stored data pad nlen ⟨by omega, ?_⟩ hlt hnlen nofun, ?_, ?_⟩⟩
            · have hmul := Nat.div_add_mod s₂.br.rest.length 8
              omega
            · rw [hrest, hrest₃, hfield]
              simp only [List.append_assoc]
            · rw [← hout', hdata]
              rfl
        · rw [if_neg (by omega)]
          by_cases hfixed : value ty = 1
          · simp only [show ((value ty : Nat) : Int) = 1 by omega, if_true]
            rw [hfixed] at hfield
            apply Ends.bind (buildFixed_spec _ _ List.length_replicate List.length_replicate s₂)
            rintro ⟨hl, hd⟩ s₃ ⟨rfl, hhl, hhd⟩
            apply (runLoop_sound hl hd _ _ hhl hhd final.toNat s₃ hok₂ hnext₂.2.1).mono
            rintro r s₄ ⟨hnext₄, rfl | ⟨rfl, toks, ws, hrest₄, htoks, hdata⟩⟩
            · exact ⟨hnext₂.trans hnext₄, Or.inl rfl⟩
            · rw [hout'] at htoks hdata
              refine ⟨hnext₂.trans hnext₄, Or.inr ⟨final, .fixed toks, _, rfl,
                EncBlock.fixed toks ws htoks, ?_, hdata⟩⟩
              rw [hrest, hrest₄, hfield]
              simp only [List.append_assoc]
          · simp only [if_neg (show ¬ ((value ty : Nat) : Int) = 1 by omega)]
            rw [show value ty = 2 by omega] at hfield
            apply Ends.bind (Ends.onBr (readDynamic_sound _ List.length_replicate s₂.br hok₂))
            rintro r s₃ ⟨⟨hok₃, hsame₃, rfl | ⟨hl, hd, litLens, distLens, hs, rfl, hhl, hhd, hheader,
              hrest₃⟩⟩, hout₃⟩
            · exact Ends.pure ⟨⟨hok₃, by rw [hout₃]; exact hnext₂.2.1, hnext₂.2.2.trans hsame₃⟩,
                Or.inl rfl⟩
            · have hnext₃ : s.Next s₃ :=
                ⟨hok₃, by rw [hout₃]; exact hnext₂.2.1, hnext₂.2.2.trans hsame₃⟩
              apply (runLoop_sound hl hd _ _ hhl hhd final.toNat s₃ hok₃ hnext₃.2.1).mono
              rintro r s₄ ⟨hnext₄, rfl | ⟨rfl, toks, ws, hrest₄, htoks, hdata⟩⟩
              · exact ⟨hnext₃.trans hnext₄, Or.inl rfl⟩
              · rw [hout₃, hout'] at htoks hdata
                refine ⟨hnext₃.trans hnext₄, Or.inr ⟨final, .dynamic litLens distLens toks, _, rfl,
                  EncBlock.dynamic litLens distLens toks hs ws hheader htoks, ?_, hdata⟩⟩
                rw [hrest, hrest₃, hrest₄, hfield]
                simp only [List.append_assoc]
    · -- without a bit for the mark there are none for the type
      rw [hnil₁] at hrest₂
      have := congrArg List.length hrest₂
      simp only [List.length_nil, List.length_append, hty] at this
      omega
  · rw [if_pos (by omega)]
    exact Ends.pure ⟨hnext₂, Or.inl rfl⟩

/-- The mark and the type of a block, read in front of `body`. -/
theorem blockHead_complete (f : Int → Int → Exec Sess Int) (final : Bool) (ty : Nat) (hty : ty < 3)
    (body : List Bool) (s : Sess) (hbr : s.br.Ok) (hout : s.out.Ok) (q : Int → Sess → Prop)
    (hrest : s.br.rest = final :: (field 2 ty ++ body))
    (h : ∀ s₂ : Sess, s.Next s₂ → s₂.out = s.out → s₂.br.rest = body →
      Ends (f final.toNat ty) s₂ q) :
    Ends (do let last ← onBr (brBits 1); let type ← onBr (brBits 2); f last type) s q := by
  apply Ends.bind (Ends.onBr (brBits_read [final] _ s.br hbr (by simp) hrest))
  rintro _ s₁ ⟨⟨hok₁, hsame₁, rfl, hrest₁⟩, hout₁⟩
  have hread := brBits_read (field 2 ty) body s₁.br hok₁ (by simp) hrest₁
  rw [field_length, value_field, Nat.mod_eq_of_lt (by omega)] at hread
  apply Ends.bind (Ends.onBr hread)
  rintro _ s₂ ⟨⟨hok₂, hsame₂, rfl, hrest₂⟩, hout₂⟩
  have hout' : s₂.out = s.out := by rw [hout₂, hout₁]
  have hlast : value [final] = final.toNat := by cases final <;> rfl
  rw [hlast]
  exact h s₂ ⟨hok₂, by rwa [hout'], hsame₁.trans hsame₂⟩ hout' hrest₂

/-- A block that fits the format is decoded to its bytes and its mark, and no
bit behind it is consumed. -/
theorem inflateBlock_complete (pos : Nat) (pre hist : List UInt8) (final : Bool) (b : Block)
    (bits tail : List Bool) (henc : EncBlock true pos hist final b bits) (s : Sess)
    (hbr : s.br.Ok) (hout : s.out.Ok) (hdata : s.out.data = pre ++ hist)
    (hpos : (pos + s.br.rest.length) % 8 = 0) (hrest : s.br.rest = bits ++ tail) :
    Ends inflateBlock s fun r s' => s.Next s' ∧ r = final.toNat ∧ s'.br.rest = tail ∧
      s'.out.data = s.out.data ++ b.bytes hist := by
  unfold inflateBlock
  cases henc with
  | stored data pad nlen hpad hlen hnlen hrfc =>
    simp only [List.append_assoc, List.singleton_append] at hrest
    apply blockHead_complete _ final 0 (by omega) _ s hbr hout _ hrest
    intro s₂ hnext₂ hout₂ hrest₂
    have hbits : s.br.rest.length = 3 + s₂.br.rest.length := by
      rw [hrest, hrest₂]
      simp only [List.length_cons, List.length_append, field_length]
    rw [if_neg (by omega), if_pos (by omega)]
    apply Ends.bind (decodeStored_complete data pad nlen tail s₂ hnext₂.1 hnext₂.2.1 (by omega) hlen
      (by rw [hrfc rfl, field_length]) (by simpa only [List.append_assoc] using hrest₂))
    rintro r s₃ ⟨hok₃, hout₃, hsame₃, rfl, hrest₃, hdata₃⟩
    rw [if_neg (by omega)]
    refine Ends.pure ⟨⟨hok₃, hout₃, hnext₂.2.2.trans hsame₃⟩, rfl, hrest₃, ?_⟩
    rw [hdata₃, hout₂]
    rfl
  | fixed toks ws htoks =>
    simp only [List.append_assoc, List.singleton_append] at hrest
    apply blockHead_complete _ final 1 (by omega) _ s hbr hout _ hrest
    intro s₂ hnext₂ hout₂ hrest₂
    rw [if_neg (by omega), if_neg (by omega)]
    apply Ends.bind (buildFixed_spec _ _ List.length_replicate List.length_replicate s₂)
    rintro ⟨hl, hd⟩ s₃ ⟨rfl, hhl, hhd⟩
    apply (runLoop_complete hl hd _ _ hhl hhd final.toNat pre hist toks ws tail htoks s₃ hnext₂.1
      hnext₂.2.1 (by rw [hout₂, hdata]) hrest₂).mono
    rintro r s₄ ⟨hnext₄, rfl, hrest₄, hdata₄⟩
    rw [hout₂] at hdata₄
    exact ⟨hnext₂.trans hnext₄, rfl, hrest₄, hdata₄⟩
  | dynamic litLens distLens toks hs ws hheader htoks =>
    simp only [List.append_assoc, List.singleton_append] at hrest
    apply blockHead_complete _ final 2 (by omega) _ s hbr hout _ hrest
    intro s₂ hnext₂ hout₂ hrest₂
    rw [if_neg (by omega), if_neg (by omega)]
    apply Ends.bind (Ends.onBr (readDynamic_complete true litLens distLens hs (ws ++ tail) _
      List.length_replicate s₂.br hnext₂.1 hheader hrest₂))
    rintro r s₃ ⟨⟨hok₃, hsame₃, hrest₃, hl, hd, rfl, hhl, hhd⟩, hout₃⟩
    have hnext₃ : s.Next s₃ := ⟨hok₃, by rw [hout₃]; exact hnext₂.2.1, hnext₂.2.2.trans hsame₃⟩
    have hout' : s₃.out = s.out := by rw [hout₃, hout₂]
    apply (runLoop_complete hl hd _ _ hhl hhd final.toNat pre hist toks ws tail htoks s₃ hok₃
      hnext₃.2.1 (by rw [hout', hdata]) hrest₃).mono
    rintro r s₄ ⟨hnext₄, rfl, hrest₄, hdata₄⟩
    rw [hout'] at hdata₄
    exact ⟨hnext₃.trans hnext₄, rfl, hrest₄, hdata₄⟩

/-- `n` calls of `inflate_block` in a row, with their results. -/
def inflateCalls : Nat → Exec Sess (List Int)
  | 0 => pure []
  | n + 1 => do
      let r ← inflateBlock
      let rs ← inflateCalls n
      pure (r :: rs)

/-- The results over a stream of `n` blocks. -/
def blockMarks (n : Nat) : List Int := List.replicate (n - 1) 0 ++ [1]

theorem EncBlock.length_le {rfc : Bool} {pos : Nat} {hist : List UInt8} {final : Bool} {b : Block}
    {bits : List Bool} (h : EncBlock rfc pos hist final b bits) : 3 ≤ bits.length := by
  cases h <;> simp

theorem inflateCalls_complete (pos : Nat) (pre hist : List UInt8) (blocks : List Block)
    (enc tail : List Bool) (henc : EncStream true pos hist blocks enc) (s : Sess) (hbr : s.br.Ok)
    (hout : s.out.Ok) (hdata : s.out.data = pre ++ hist)
    (hpos : (pos + s.br.rest.length) % 8 = 0) (hrest : s.br.rest = enc ++ tail) :
    Ends (inflateCalls blocks.length) s fun rs s' => s.Next s' ∧ rs = blockMarks blocks.length ∧
      s'.br.rest = tail ∧ s'.out.data = s.out.data ++ streamBytes hist blocks := by
  induction henc generalizing s with
  | last pos hist b bits hb =>
    apply Ends.bind (inflateBlock_complete pos pre hist true b bits tail hb s hbr hout hdata hpos hrest)
    rintro r s₁ ⟨hnext₁, rfl, hrest₁, hdata₁⟩
    refine Ends.pure ⟨hnext₁, rfl, hrest₁, ?_⟩
    rw [hdata₁, streamBytes, streamBytes, List.append_nil]
  | more pos hist b bs bits rest hb hbs ih =>
    rw [List.append_assoc] at hrest
    apply Ends.bind (inflateBlock_complete pos pre hist false b bits _ hb s hbr hout hdata hpos hrest)
    rintro r s₁ ⟨hnext₁, rfl, hrest₁, hdata₁⟩
    have hlen : s.br.rest.length = bits.length + s₁.br.rest.length := by
      rw [hrest, hrest₁]
      simp only [List.length_append]
    apply Ends.bind (ih s₁ hnext₁.1 hnext₁.2.1 (by rw [hdata₁, hdata, List.append_assoc]) (by omega)
      hrest₁)
    rintro rs s₂ ⟨hnext₂, rfl, hrest₂, hdata₂⟩
    refine Ends.pure ⟨hnext₁.trans hnext₂, ?_, hrest₂, ?_⟩
    · cases hbs <;> simp [blockMarks, List.replicate_succ]
    · rw [hdata₂, hdata₁, streamBytes, List.append_assoc]

/-- The number of bits consumed, from those still to be delivered. -/
theorem Br.consumed {data : List UInt8} {br : Br} (h : br.Ok) (hsame : (brInit data data.length).Same br)
    {enc tail : List Bool} (hdata : byteBits data = enc ++ tail) (hrest : br.rest = tail) :
    8 * br.pos = enc.length + br.bits := by
  have hlen := congrArg List.length hdata
  rw [byteBits_length, List.length_append, ← hrest, br.rest_length h] at hlen
  have hbr : br.len = data.length := hsame.2
  have hpos := h.pos_le
  omega

/-- `inflate_block`, called from `br_init` on over the encoding of a stream and
any bits behind it, marks the last block and no other, appends the bytes of the
blocks to the output and stops behind the last bit. -/
theorem inflateCalls_stream (blocks : List Block) (enc tail : List Bool) (data : List UInt8)
    (out : Buf) (henc : EncStream true 0 [] blocks enc) (hdata : byteBits data = enc ++ tail)
    (hout : out.Ok) :
    Ends (inflateCalls blocks.length) ⟨brInit data data.length, out⟩ fun rs s =>
      rs = blockMarks blocks.length ∧ s.out.data = out.data ++ streamBytes [] blocks ∧
      s.br.rest = tail ∧ 8 * s.br.pos = enc.length + s.br.bits := by
  have hrest : (brInit data data.length).rest = enc ++ tail := by
    rw [brInit_rest, List.take_length, hdata]
  apply (inflateCalls_complete 0 out.data [] blocks enc tail henc
    ⟨brInit data data.length, out⟩ (brInit_ok data data.length (Nat.le_refl _)) hout
    (List.append_nil _).symm (by rw [brInit_rest, byteBits_length]; omega) hrest).mono
  rintro rs s ⟨hnext, rfl, htail, hbytes⟩
  exact ⟨rfl, hbytes, htail, Br.consumed hnext.1 hnext.2.2 hdata htail⟩

/-- A stored block, then a fixed one whose copy is longer than its distance. -/
def sampleBlocks : List Block :=
  [.stored [65], .fixed [.lit 97, .lit 98, .copy 3 1]]

def sampleStream : List UInt8 := [0, 1, 0, 254, 255, 65] ++ [75, 76, 2, 2, 0]

theorem sampleStream_encodes : ∃ enc : List Bool,
    EncStream true 0 [] sampleBlocks enc ∧
      byteBits sampleStream = enc ++ [false, false] := by
  have hstored : EncBlock true 0 [] false (.stored [65]) _ :=
    EncBlock.stored [65] [false, false, false, false, false] (field 16 65534) (by decide)
      (by decide) (Or.inl rfl) (fun _ => rfl)
  have hcopy : EncToken fixedLitLens fixedDistLens (.copy 3 1) _ :=
    EncToken.copy 0 0 3 0 1 0 [false, false, false, false, false, false, true] []
      [false, false, false, false, false] [] rfl (by decide +kernel) rfl rfl (by decide +kernel) rfl
  have hfixed : EncBlock true 48 [65] true (.fixed [.lit 97, .lit 98, .copy 3 1]) _ :=
    EncBlock.fixed _ _ (EncTokens.cons _ _ _ _ _
      (EncToken.lit 97 [true, false, false, true, false, false, false, true] (by decide +kernel))
      trivial
      (EncTokens.cons _ _ _ _ _
        (EncToken.lit 98 [true, false, false, true, false, false, true, false] (by decide +kernel))
        trivial
        (EncTokens.cons _ _ _ _ _ hcopy ⟨by decide, by decide⟩
          (EncTokens.nil _ [false, false, false, false, false, false, false] (by decide +kernel)))))
  refine ⟨_, EncStream.more 0 [] _ _ _ _ hstored (EncStream.last _ _ _ _ hfixed), ?_⟩
  decide

theorem inflateCalls_sample :
    Ends (inflateCalls 2) ⟨brInit sampleStream sampleStream.length, Buf.init⟩ fun rs s =>
      rs = [0, 1] ∧ s.out.data = [65, 97, 98, 98, 98, 98] ∧ s.br.rest = [false, false] ∧
        8 * s.br.pos = 86 + s.br.bits := by
  obtain ⟨enc, henc, hdata⟩ := sampleStream_encodes
  apply (inflateCalls_stream sampleBlocks enc _ sampleStream Buf.init henc hdata Buf.init_ok).mono
  rintro rs s ⟨rfl, hbytes, hrest, hpos⟩
  have hlen := congrArg List.length hdata
  rw [List.length_append, byteBits_length] at hlen
  simp [sampleStream] at hlen
  exact ⟨rfl, hbytes, hrest, by omega⟩

end Cage.Compress
