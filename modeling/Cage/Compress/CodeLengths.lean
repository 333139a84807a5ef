import Cage.Compress.InflateSteps

/-!
The header of a dynamic block: the lengths of the code length code, the run
lengths that fill `lit`, and the two tables built from it.
-/

namespace Cage.Compress

open Lib.Bits Lib.Checked Lib.Canonical

variable {σ : Type}

private theorem clOrder_idxOf : ∀ s, s < 19 → clOrder[clOrder.idxOf s]? = some s := by decide

private theorem idxOf_clOrder : ∀ i s, i < 19 → clOrder[i]? = some s → clOrder.idxOf s = i := by
  intro i s hi hs
  have hall : ∀ j < 19, ∀ t, clOrder[j]? = some t → clOrder.idxOf t = j := by
    intro j hj
    have hget : ∃ t, clOrder[j]? = some t ∧ clOrder.idxOf t = j := by
      revert j
      decide
    obtain ⟨t, ht, hidx⟩ := hget
    intro u hu
    rw [ht] at hu
    cases hu
    exact hidx
  exact hall i hi s hs

private theorem clOrder_lt {i s : Nat} (h : clOrder[i]? = some s) : s < 19 :=
  (by decide : ∀ x ∈ clOrder, x < 19) s (List.mem_of_getElem? h)

theorem clVector_length (sent : List Nat) : (clVector sent).length = 19 := by
  simp [clVector]

/-- Storing the next length at its place extends the vector by it. -/
theorem clVector_snoc (sent : List Nat) (v s : Nat) (hs : clOrder[sent.length]? = some s) :
    (clVector sent).set s v = clVector (sent ++ [v]) := by
  have hlt : sent.length < 19 := (List.getElem?_eq_some_iff.mp hs).1
  apply List.ext_getElem?
  intro t
  rw [List.getElem?_set]
  by_cases ht : t < 19
  · have hget : ∀ xs : List Nat, (clVector xs)[t]? = some (xs.getD (clOrder.idxOf t) 0) := by
      intro xs
      rw [clVector, List.getElem?_map, List.getElem?_range ht]
      rfl
    rw [hget, hget, clVector_length]
    by_cases hst : s = t
    · subst hst
      rw [if_pos rfl, if_pos ht, idxOf_clOrder _ s hlt hs, List.getD_eq_getElem?_getD,
        List.getElem?_append_right (Nat.le_refl _)]
      simp
    · rw [if_neg hst]
      have hne : clOrder.idxOf t ≠ sent.length := by
        intro heq
        have h := clOrder_idxOf t ht
        rw [heq, hs] at h
        exact hst (Option.some.inj h)
      rw [List.getD_eq_getElem?_getD, List.getD_eq_getElem?_getD]
      rcases Nat.lt_or_gt_of_ne hne with hlt' | hgt
      · rw [List.getElem?_append_left hlt']
      · rw [List.getElem?_eq_none (by omega), List.getElem?_eq_none (by simp; omega)]
  · rw [if_neg, List.getElem?_eq_none (by simp [clVector]; omega),
      List.getElem?_eq_none (by simp [clVector]; omega)]
    have := clOrder_lt hs
    omega

theorem clVector_nil : clVector [] = List.replicate 19 0 := by decide

theorem clLoop_sound (k : Nat) (sent : List Nat) (br : Br) (h : br.Ok)
    (hk : sent.length + k ≤ 19) :
    Ends (clLoop k sent.length (clVector sent)) br fun r br' => br'.Ok ∧ br.Same br' ∧
      (r = none ∧ br.rest.length < 3 * k ∨ ∃ more : List Nat, more.length = k ∧
        (∀ l ∈ more, l < 8) ∧ br.rest = more.flatMap (field 3) ++ br'.rest ∧
        r = some (clVector (sent ++ more))) := by
  induction k generalizing sent br with
  | zero =>
    exact Ends.pure ⟨h, Br.Same.refl br, Or.inr ⟨[], rfl, by simp, rfl, by simp⟩⟩
  | succ k ih =>
    apply Ends.bind (brBits_spec 3 br h (by omega))
    rintro v br₁ ⟨hok, hsame, ⟨w, hw, hrest, rfl⟩ | ⟨hshort, rfl, hrest⟩⟩
    · rw [if_neg (by omega), Int.toNat_natCast]
      obtain ⟨s, hs⟩ : ∃ s, clOrder[sent.length]? = some s :=
        ⟨_, List.getElem?_eq_getElem (show sent.length < 19 by omega)⟩
      apply Ends.load_bind (show clOrd[sent.length]? = some s from hs)
      have hs19 : s < (clVector sent).length := by
        rw [clVector_length]
        exact clOrder_lt hs
      apply Ends.store_bind hs19
      rw [clVector_snoc sent (value w) s hs]
      have hlen : (sent ++ [value w]).length = sent.length + 1 := by simp
      rw [← hlen]
      have hv : value w < 8 := by
        have := value_lt w
        rwa [hw] at this
      have hfield : field 3 (value w) = w := by rw [← hw, field_value]
      apply (ih (sent ++ [value w]) br₁ hok (by omega)).mono
      rintro r br₂ ⟨hok₂, hsame₂, ⟨rfl, hshort⟩ | ⟨more, hmore, hlt, hrest₂, rfl⟩⟩
      · refine ⟨hok₂, hsame.trans hsame₂, Or.inl ⟨rfl, ?_⟩⟩
        rw [hrest, List.length_append]
        omega
      · refine ⟨hok₂, hsame.trans hsame₂, Or.inr ⟨value w :: more, by simp [hmore], ?_, ?_, ?_⟩⟩
        · intro l hl
          rcases List.mem_cons.mp hl with rfl | hl
          · exact hv
          · exact hlt l hl
        · rw [hrest, hrest₂, List.flatMap_cons, hfield, List.append_assoc]
        · rw [List.append_assoc]
          rfl
    · rw [if_pos (by omega)]
      exact Ends.pure ⟨hok, hsame, Or.inl ⟨rfl, by omega⟩⟩

/-- `fill_rep` writes up to `rep` copies and stops at the end of the vector. -/
theorem fillRep_spec (lit : List Nat) (idx total rep val : Nat) (s : σ) (hidx : idx ≤ total)
    (htotal : total ≤ lit.length) :
    Ends (fillRep lit idx total rep val) s fun r s' => s' = s ∧ r.1.length = lit.length ∧
      r.2 = min (idx + rep) total ∧
      r.1.take r.2 = (lit.take idx ++ List.replicate rep val).take total := by
  induction rep generalizing lit idx with
  | zero =>
    refine Ends.pure ⟨rfl, rfl, by omega, ?_⟩
    rw [List.replicate_zero, List.append_nil, List.take_take]
    congr 1
    omega
  | succ rep ih =>
    unfold fillRep
    by_cases hend : idx ≥ total
    · rw [if_pos hend]
      have heq : idx = total := by omega
      refine Ends.pure ⟨rfl, rfl, by omega, ?_⟩
      rw [List.take_append_of_le_length (by simp; omega), List.take_take, heq, Nat.min_self]
    · rw [if_neg hend]
      apply Ends.store_bind (by omega)
      apply (ih (lit.set idx val) (idx + 1) (by omega) (by simpa using htotal)).mono
      rintro ⟨lit', idx'⟩ s' ⟨hs, hlen, hidx', htake⟩
      refine ⟨hs, by simpa using hlen, by rw [hidx']; omega, ?_⟩
      rw [htake, List.take_add_one, List.getElem?_set_self (by omega), List.take_set_of_le (by omega),
        List.replicate_succ]
      simp

/-- The vector held in `lit` up to `idx`. -/
def Filled (lit : List Nat) (idx total : Nat) (acc : List Nat) : Prop :=
  lit.length = 320 ∧ total ≤ 320 ∧ acc.length ≤ total ∧ idx = acc.length ∧ lit.take idx = acc

/-- What `rep_len` does with an item: the vector grows by it, cut at `total`. -/
theorem repLen_apply (lit : List Nat) (idx total rep val : Nat) (acc : List Nat) (s : σ)
    (h : Filled lit idx total acc) :
    Ends (fillRep lit idx total rep val) s fun r s' => s' = s ∧
      Filled r.1 r.2 total ((acc ++ List.replicate rep val).take total) := by
  obtain ⟨hlen, htotal, hacc, hidx, htake⟩ := h
  apply (fillRep_spec lit idx total rep val s (by omega) (by omega)).mono
  rintro ⟨lit', idx'⟩ s' ⟨hs, hlen', hidx', htake'⟩
  refine ⟨hs, by rw [hlen', hlen], htotal, by simp, ?_, by rw [htake', htake]⟩
  rw [hidx', List.length_take, List.length_append, List.length_replicate, hidx]
  omega

/-- The extra bits of a repeat symbol, and the item it stands for with them. -/
def repBits (sym : Nat) : Nat := if sym = 16 then 2 else if sym = 17 then 3 else 7

def repItem (sym : Nat) (x : List Bool) : ClItem :=
  if sym = 16 then .again (3 + value x)
  else if sym = 17 then .zeros (3 + value x)
  else .zeros (11 + value x)

theorem encItem_rep {cl : List Nat} {sym : Nat} {w x : List Bool} (hlow : 16 ≤ sym)
    (hhigh : sym < 19) (hw : Codeword 15 cl sym w) (hx : x.length = repBits sym) :
    EncItem cl (repItem sym x) (w ++ x) := by
  obtain rfl | rfl | rfl : sym = 16 ∨ sym = 17 ∨ sym = 18 := by omega
  · exact EncItem.again w x hw hx
  · exact EncItem.zeros w x hw hx
  · exact EncItem.manyZeros w x hw hx

theorem EncItem.cases_rep {cl : List Nat} {item : ClItem} {bits : List Bool}
    (h : EncItem cl item bits) :
    (∃ n, n < 16 ∧ Codeword 15 cl n bits ∧ item = .len n) ∨
      ∃ sym w x, 16 ≤ sym ∧ sym < 19 ∧ Codeword 15 cl sym w ∧ x.length = repBits sym ∧
        bits = w ++ x ∧ item = repItem sym x := by
  cases h with
  | len n w hn hw => exact Or.inl ⟨n, hn, hw, rfl⟩
  | again w x hw hx => exact Or.inr ⟨16, w, x, by omega, by omega, hw, hx, rfl, rfl⟩
  | zeros w x hw hx => exact Or.inr ⟨17, w, x, by omega, by omega, hw, hx, rfl, rfl⟩
  | manyZeros w x hw hx => exact Or.inr ⟨18, w, x, by omega, by omega, hw, hx, rfl, rfl⟩

/-- `rep_len` adds the item of its symbol, unless bits are missing or there is
no length to repeat. -/
theorem repLen_spec (lit : List Nat) (idx total sym : Nat) (acc : List Nat) (br : Br)
    (h : br.Ok) (hfill : Filled lit idx total acc) (hlow : 16 ≤ sym) (hhigh : sym < 19) :
    Ends (repLen lit idx total sym) br fun r br' => br'.Ok ∧ br.Same br' ∧
      ((∃ x acc' lit' idx', x.length = repBits sym ∧ br.rest = x ++ br'.rest ∧
          (repItem sym x).apply acc = some acc' ∧ r = some (lit', idx') ∧
          Filled lit' idx' total (acc'.take total)) ∨
        (r = none ∧ (br.rest.length < repBits sym ∨ sym = 16 ∧ acc = []) ∧
          ∃ u, br.rest = u ++ br'.rest)) := by
  have hzeros : ∀ n base, n ≤ 16 → Ends (do
      let raw ← brBits n
      if raw < 0 then pure none else do
        let r ← fillRep lit idx total (raw.toNat + base) 0
        pure (some r)) br fun r br' => br'.Ok ∧ br.Same br' ∧
      ((∃ x lit' idx', x.length = n ∧ br.rest = x ++ br'.rest ∧ r = some (lit', idx') ∧
          Filled lit' idx' total ((acc ++ List.replicate (base + value x) 0).take total)) ∨
        (r = none ∧ br.rest.length < n ∧ br'.rest = br.rest)) := by
    intro n base hn
    apply Ends.bind (brBits_spec n br h hn)
    rintro raw br₁ ⟨hok, hsame, ⟨x, hx, hrest, rfl⟩ | ⟨hshort, rfl, hrest⟩⟩
    · rw [if_neg (by omega), Int.toNat_natCast]
      apply Ends.bind (repLen_apply lit idx total (value x + base) 0 acc br₁ hfill)
      rintro ⟨lit', idx'⟩ _ ⟨rfl, hfill'⟩
      rw [Nat.add_comm] at hfill'
      exact Ends.pure ⟨hok, hsame, Or.inl ⟨x, lit', idx', hx, hrest, rfl, hfill'⟩⟩
    · exact Ends.pure ⟨hok, hsame, Or.inr ⟨rfl, hshort, hrest⟩⟩
  obtain rfl | rfl | rfl : sym = 16 ∨ sym = 17 ∨ sym = 18 := by omega
  · apply Ends.bind (brBits_spec 2 br h (by omega))
    rintro raw br₁ ⟨hok, hsame, ⟨x, hx, hrest, rfl⟩ | ⟨hshort, rfl, hrest⟩⟩
    · by_cases hidx : idx < 1
      · rw [if_pos (Or.inr hidx)]
        have hnil : acc = [] := List.eq_nil_of_length_eq_zero (by have := hfill.2.2.2.1; omega)
        exact Ends.pure ⟨hok, hsame, Or.inr ⟨rfl, Or.inr ⟨rfl, hnil⟩, x, hrest⟩⟩
      · rw [if_neg (by omega), Int.toNat_natCast]
        obtain ⟨hlen, htotal, hacc, hidx', htake⟩ := hfill
        have hlast : lit[idx - 1]? = acc.getLast? := by
          rw [List.getLast?_eq_getElem?, ← htake, List.length_take, List.getElem?_take,
            if_pos (by omega)]
          congr 1
          omega
        obtain ⟨l, hl⟩ : ∃ l, acc.getLast? = some l := by
          rw [← hlast]
          exact ⟨_, List.getElem?_eq_getElem (show idx - 1 < lit.length by omega)⟩
        apply Ends.load_bind (hlast.trans hl)
        apply Ends.bind (repLen_apply lit idx total (value x + 3) l acc br₁
          ⟨hlen, htotal, hacc, hidx', htake⟩)
        rintro ⟨lit', idx''⟩ _ ⟨rfl, hfill'⟩
        rw [Nat.add_comm] at hfill'
        refine Ends.pure ⟨hok, hsame, Or.inl ⟨x, _, lit', idx'', hx, hrest, ?_, rfl, hfill'⟩⟩
        show acc.getLast?.map _ = _
        rw [hl]
        rfl
    · rw [if_pos (Or.inl (by omega))]
      exact Ends.pure ⟨hok, hsame, Or.inr ⟨rfl, Or.inl hshort, [], hrest.symm⟩⟩
  · apply (hzeros 3 3 (by omega)).mono
    rintro r br₁ ⟨hok, hsame, ⟨x, lit', idx', hx, hrest, hr, hfill'⟩ | ⟨hr, hshort, hrest⟩⟩
    · exact ⟨hok, hsame, Or.inl ⟨x, _, lit', idx', hx, hrest, rfl, hr, hfill'⟩⟩
    · exact ⟨hok, hsame, Or.inr ⟨hr, Or.inl hshort, [], hrest.symm⟩⟩
  · apply (hzeros 7 11 (by omega)).mono
    rintro r br₁ ⟨hok, hsame, ⟨x, lit', idx', hx, hrest, hr, hfill'⟩ | ⟨hr, hshort, hrest⟩⟩
    · exact ⟨hok, hsame, Or.inl ⟨x, _, lit', idx', hx, hrest, rfl, hr, hfill'⟩⟩
    · exact ⟨hok, hsame, Or.inr ⟨hr, Or.inl hshort, [], hrest.symm⟩⟩

/-- A plain length goes to the next entry. -/
theorem Filled.snoc {lit : List Nat} {idx total : Nat} {acc : List Nat}
    (h : Filled lit idx total acc) (hlt : idx < total) (n : Nat) :
    Filled (lit.set idx n) (idx + 1) total ((acc ++ [n]).take total) := by
  obtain ⟨hlen, htotal, hacc, hidx, htake⟩ := h
  have hfull : (acc ++ [n]).take total = acc ++ [n] :=
    List.take_of_length_le (by simp; omega)
  rw [hfull]
  refine ⟨by simpa using hlen, htotal, by simp; omega, by simp [hidx], ?_⟩
  rw [List.take_add_one, List.take_set_of_le (Nat.le_refl _), List.getElem?_set_self (by omega),
    htake]
  rfl

theorem ClItem.apply_grows {acc acc' : List Nat} {item : ClItem} {cl : List Nat}
    {bits : List Bool} (hitem : EncItem cl item bits) (h : item.apply acc = some acc') :
    acc.length < acc'.length := by
  cases hitem with
  | len n w hn hw =>
    cases h
    simp
  | again w x hw hx =>
    simp only [ClItem.apply, Option.map_eq_some_iff] at h
    obtain ⟨l, -, rfl⟩ := h
    simp
  | zeros w x hw hx =>
    cases h
    simp
  | manyZeros w x hw hx =>
    cases h
    simp

theorem decodeLenLoop_sound (hc : Huff) (cl : List Nat) (hh : hc.Holds cl)
    (hcl : cl.length = 19) (total fuel : Nat) (lit : List Nat) (idx : Nat) (acc : List Nat)
    (br : Br) (h : br.Ok) (hfill : Filled lit idx total acc) (hfuel : total < fuel + idx) :
    Ends (decodeLenLoop hc total fuel lit idx) br fun r br' => br'.Ok ∧ br.Same br' ∧
      ∃ ws, br.rest = ws ++ br'.rest ∧ (r = none ∨ ∃ lit' items, r = some lit' ∧
        lit'.length = 320 ∧ EncItems false cl total acc items ws (lit'.take total)) := by
  induction fuel generalizing lit idx acc br with
  | zero =>
    have := hfill.2.2
    omega
  | succ fuel ih =>
    unfold decodeLenLoop
    by_cases hidx : idx < total
    · rw [if_pos hidx]
      have hacc : acc.length < total := by
        rw [← hfill.2.2.2.1]
        exact hidx
      apply Ends.bind (huffDecode_sound hc cl hh br h)
      rintro r br₁ ⟨hok, hsame, w, hrest, rfl | ⟨sym, rfl, hw⟩⟩
      · exact Ends.pure ⟨hok, hsame, w, hrest, Or.inl rfl⟩
      · rw [if_neg (by omega)]
        by_cases hsym : sym < 16
        · rw [if_pos (by omega), Int.toNat_natCast]
          apply Ends.store_bind (by have := hfill.1; have := hfill.2.1; omega)
          apply (ih _ _ _ br₁ hok (hfill.snoc hidx sym) (by omega)).mono
          rintro r br₂ ⟨hok₂, hsame₂, ws, hrest₂, hcase⟩
          refine ⟨hok₂, hsame.trans hsame₂, w ++ ws, by rw [hrest, hrest₂, List.append_assoc], ?_⟩
          rcases hcase with hnone | ⟨lit', items, hr, hlen, hitems⟩
          · exact Or.inl hnone
          · exact Or.inr ⟨lit', .len sym :: items, hr, hlen, EncItems.step acc _ _ items w ws _ hacc
              (EncItem.len sym w hsym hw) rfl (by simp) hitems⟩
        · rw [if_neg (by omega), Int.toNat_natCast]
          have hlt := hw.lt
          rw [hcl] at hlt
          apply Ends.bind (repLen_spec lit idx total sym acc br₁ hok hfill (by omega) hlt)
          rintro r br₂ ⟨hok₂, hsame₂, ⟨x, acc', lit', idx', hx, hrest₂, happly, rfl, hfill'⟩ |
            ⟨rfl, -, u, hrest₂⟩⟩
          · have hitem := encItem_rep (by omega) hlt hw hx
            have hgrow := ClItem.apply_grows hitem happly
            have hidx' : idx < idx' := by
              have h1 := hfill.2.2.2.1
              have h2 := hfill'.2.2.2.1
              rw [List.length_take] at h2
              omega
            apply (ih lit' idx' (acc'.take total) br₂ hok₂ hfill' (by omega)).mono
            rintro r br₃ ⟨hok₃, hsame₃, ws, hrest₃, hcase⟩
            refine ⟨hok₃, (hsame.trans hsame₂).trans hsame₃, w ++ x ++ ws,
              by rw [hrest, hrest₂, hrest₃]; simp only [List.append_assoc], ?_⟩
            rcases hcase with hnone | ⟨lit'', items, hr, hlen, hitems⟩
            · exact Or.inl hnone
            · exact Or.inr ⟨lit'', repItem sym x :: items, hr, hlen,
                EncItems.step acc acc' _ items (w ++ x) ws _ hacc hitem happly (by simp) hitems⟩
          · refine Ends.pure ⟨hok₂, hsame.trans hsame₂, w ++ u, ?_, Or.inl rfl⟩
            rw [hrest, hrest₂, List.append_assoc]
    · rw [if_neg hidx]
      obtain ⟨hlen, htotal, hacc, hidx', htake⟩ := hfill
      refine Ends.pure ⟨h, Br.Same.refl br, [], rfl, Or.inr ⟨lit, [], rfl, hlen, ?_⟩⟩
      have heq : idx = total := by omega
      rw [← heq, htake]
      exact EncItems.done acc (by omega)

theorem decodeLenLoop_complete (rfc : Bool) (hc : Huff) (cl : List Nat) (hh : hc.Holds cl)
    (total fuel : Nat) (lit : List Nat) (idx : Nat) (acc : List Nat) (items : List ClItem)
    (ws tail : List Bool) (res : List Nat) (br : Br) (h : br.Ok)
    (hitems : EncItems rfc cl total acc items ws res) (hfill : Filled lit idx total acc)
    (hfuel : total < fuel + idx) (hrest : br.rest = ws ++ tail) :
    Ends (decodeLenLoop hc total fuel lit idx) br fun r br' => br'.Ok ∧ br.Same br' ∧
      br'.rest = tail ∧ ∃ lit', r = some lit' ∧ lit'.length = 320 ∧ lit'.take total = res := by
  induction hitems generalizing fuel lit idx br with
  | done acc hacc =>
    obtain ⟨hlen, htotal, -, hidx, htake⟩ := hfill
    obtain ⟨fuel, rfl⟩ : ∃ f, fuel = f + 1 := ⟨fuel - 1, by omega⟩
    unfold decodeLenLoop
    rw [if_neg (by omega)]
    exact Ends.pure ⟨h, Br.Same.refl br, hrest, lit, rfl, hlen, by rw [← hacc, ← hidx, htake]⟩
  | step acc acc' item items w ws res hlt hw happly hfit hnext ih =>
    obtain ⟨fuel, rfl⟩ : ∃ f, fuel = f + 1 := ⟨fuel - 1, by have := hfill.2.2.2.1; omega⟩
    have hidx : idx < total := by
      rw [hfill.2.2.2.1]
      exact hlt
    have hgrow := ClItem.apply_grows hw happly
    unfold decodeLenLoop
    rw [if_pos hidx]
    rcases hw.cases_rep with ⟨n, hn, hword, rfl⟩ | ⟨sym, v, x, hlow, hhigh, hword, hx, rfl, rfl⟩
    · rw [List.append_assoc] at hrest
      apply Ends.bind (huffDecode_complete hc cl hh n w (ws ++ tail) br h hword hrest)
      rintro _ br₁ ⟨hok, hsame, rfl, hrest₁⟩
      cases happly
      rw [if_neg (by omega), if_pos (by omega), Int.toNat_natCast]
      apply Ends.store_bind (by have := hfill.1; have := hfill.2.1; omega)
      apply (ih fuel _ _ br₁ hok (hfill.snoc hidx n) (by omega) hrest₁).mono
      rintro r br₂ ⟨hok₂, hsame₂, hres⟩
      exact ⟨hok₂, hsame.trans hsame₂, hres⟩
    · simp only [List.append_assoc] at hrest
      apply Ends.bind (huffDecode_complete hc cl hh sym v _ br h hword hrest)
      rintro _ br₁ ⟨hok, hsame, rfl, hrest₁⟩
      rw [if_neg (by omega), if_neg (by omega), Int.toNat_natCast]
      apply Ends.bind (repLen_spec lit idx total sym acc br₁ hok hfill hlow hhigh)
      rintro r br₂ ⟨hok₂, hsame₂, ⟨y, acc₂, lit', idx', hy, hrest₂, happly₂, rfl, hfill'⟩ |
        ⟨-, hfail, -⟩⟩
      · rw [hrest₁] at hrest₂
        obtain ⟨rfl, hrest₃⟩ := List.append_inj hrest₂ (by omega)
        rw [happly] at happly₂
        cases happly₂
        have hidx' : idx < idx' := by
          have h1 := hfill.2.2.2.1
          have h2 := hfill'.2.2.2.1
          rw [List.length_take] at h2
          omega
        apply (ih fuel lit' idx' br₂ hok₂ hfill' (by omega) hrest₃.symm).mono
        rintro r br₃ ⟨hok₃, hsame₃, hres⟩
        exact ⟨hok₃, (hsame.trans hsame₂).trans hsame₃, hres⟩
      · rcases hfail with hshort | ⟨rfl, rfl⟩
        · rw [hrest₁, List.length_append] at hshort
          omega
        · cases happly

/-- A missing `HCLEN` asks for more bits than are left, so what is read after
it fails. -/
theorem readCodeLengths_sound (nl nd : Int) (br : Br) (h : br.Ok)
    (htotal : (nl + nd).toNat ≤ 320) :
    Ends (readCodeLengths nl nd) br fun r br' => br'.Ok ∧ br.Same br' ∧
      (r = none ∨ ∃ (lit sent : List Nat) (items : List ClItem) (ws : List Bool),
        r = some lit ∧ lit.length = 320 ∧ 4 ≤ sent.length ∧ sent.length ≤ 19 ∧
        (∀ l ∈ sent, l < 8) ∧
        br.rest = field 4 (sent.length - 4) ++ sent.flatMap (field 3) ++ ws ++ br'.rest ∧
        EncItems false (clVector sent) (nl + nd).toNat [] items ws
          (lit.take (nl + nd).toNat)) := by
  apply Ends.bind (brBits_spec 4 br h (by omega))
  rintro v br₁ ⟨hok, hsame, hv⟩
  obtain ⟨nc, hnc, hnc19⟩ : ∃ nc : Nat, (v + 4).toNat = nc ∧ nc ≤ 19 := by
    rcases hv with ⟨w, hw, -, rfl⟩ | ⟨-, rfl, -⟩
    · have := value_lt w
      rw [hw] at this
      exact ⟨_, rfl, by omega⟩
    · exact ⟨3, rfl, by omega⟩
  simp only [hnc, ← clVector_nil]
  apply Ends.bind (clLoop_sound nc [] br₁ hok (by simpa using hnc19))
  rintro r br₂ ⟨hok₂, hsame₂, ⟨rfl, -⟩ | ⟨sent, hsent, hlt8, hrest₂, rfl⟩⟩
  · exact Ends.pure ⟨hok₂, hsame.trans hsame₂, Or.inl rfl⟩
  · rw [List.nil_append]
    apply Ends.bind (huffBuild_spec (clVector sent) 19 br₂ (by rw [clVector_length]) (by omega))
    rintro ct br₃ ⟨rfl, hct⟩
    rw [List.take_of_length_le (by rw [clVector_length])] at hct
    have hfill : Filled (List.replicate 320 0) 0 (nl + nd).toNat [] :=
      ⟨List.length_replicate, htotal, Nat.zero_le _, rfl, rfl⟩
    apply (decodeLenLoop_sound ct _ hct (clVector_length sent) _ _ _ _ [] br₃ hok₂ hfill
      (by omega)).mono
    rintro r br₄ ⟨hok₄, hsame₄, ws, hrest₄, hnone | ⟨lit, items, hr, hlen, hitems⟩⟩
    · exact ⟨hok₄, (hsame.trans hsame₂).trans hsame₄, Or.inl hnone⟩
    · refine ⟨hok₄, (hsame.trans hsame₂).trans hsame₄, Or.inr ?_⟩
      rcases hv with ⟨w, hw, hrest, rfl⟩ | ⟨hshort, rfl, hrest⟩
      · have hlen4 : sent.length - 4 = value w := by omega
        have hfield : field 4 (value w) = w := by rw [← hw, field_value]
        refine ⟨lit, sent, items, ws, hr, hlen, by omega, by omega, hlt8, ?_, hitems⟩
        rw [hlen4, hfield, hrest, hrest₂, hrest₄]
        simp only [List.append_assoc]
      · -- nine bits for the three lengths, where fewer than four are left
        rw [← hrest, hrest₂, List.length_append, fields_length, hsent, ← hnc] at hshort
        simp at hshort
        omega

theorem readCodeLengths_complete (rfc : Bool) (nl nd : Int) (sent res : List Nat)
    (items : List ClItem) (ws tail : List Bool) (br : Br) (h : br.Ok)
    (htotal : (nl + nd).toNat ≤ 320) (hsent : 4 ≤ sent.length ∧ sent.length ≤ 19)
    (hlt8 : ∀ l ∈ sent, l < 8)
    (hitems : EncItems rfc (clVector sent) (nl + nd).toNat [] items ws res)
    (hrest : br.rest = field 4 (sent.length - 4) ++ (sent.flatMap (field 3) ++ (ws ++ tail))) :
    Ends (readCodeLengths nl nd) br fun r br' => br'.Ok ∧ br.Same br' ∧ br'.rest = tail ∧
      ∃ lit, r = some lit ∧ lit.length = 320 ∧ lit.take (nl + nd).toNat = res := by
  have hread := brBits_read (field 4 (sent.length - 4)) _ br h (by simp) hrest
  rw [field_length, value_field, Nat.mod_eq_of_lt (by omega)] at hread
  apply Ends.bind hread
  rintro _ br₁ ⟨hok, hsame, rfl, hrest₁⟩
  have hnc : (((sent.length - 4 : Nat) : Int) + 4).toNat = sent.length := by omega
  simp only [hnc, ← clVector_nil]
  apply Ends.bind (clLoop_sound sent.length [] br₁ hok (by simpa using hsent.2))
  rintro r br₂ ⟨hok₂, hsame₂, ⟨-, hshort⟩ | ⟨more, hmore, hmore8, hrest₂, rfl⟩⟩
  · rw [hrest₁, List.length_append, fields_length] at hshort
    omega
  · rw [hrest₁] at hrest₂
    obtain ⟨hbits, hrest₃⟩ := List.append_inj hrest₂ (by rw [fields_length, fields_length, hmore])
    have heq : sent = more := fields_inj 3 sent more hlt8 hmore8 hmore.symm hbits
    subst heq
    rw [List.nil_append]
    apply Ends.bind (huffBuild_spec (clVector sent) 19 br₂ (by rw [clVector_length]) (by omega))
    rintro ct br₃ ⟨rfl, hct⟩
    rw [List.take_of_length_le (by rw [clVector_length])] at hct
    have hfill : Filled (List.replicate 320 0) 0 (nl + nd).toNat [] :=
      ⟨List.length_replicate, htotal, Nat.zero_le _, rfl, rfl⟩
    apply (decodeLenLoop_complete rfc ct _ hct _ _ _ _ [] items ws tail res br₃ hok₂ hitems hfill
      (by omega) hrest₃.symm).mono
    rintro r br₄ ⟨hok₄, hsame₄, hres⟩
    exact ⟨hok₄, (hsame.trans hsame₂).trans hsame₄, hres⟩

theorem readDynamic_sound (dst : List Nat) (hdst : dst.length = 32) (br : Br) (h : br.Ok) :
    Ends (readDynamic dst) br fun r br' => br'.Ok ∧ br.Same br' ∧
      (r = none ∨ ∃ (hl hd : Huff) (litLens distLens : List Nat) (hs : List Bool),
        r = some (hl, hd) ∧ hl.Holds litLens ∧ hd.Holds distLens ∧
        EncHeader false litLens distLens hs ∧ br.rest = hs ++ br'.rest) := by
  apply Ends.bind (brBits_spec 5 br h (by omega))
  rintro a br₁ ⟨hok₁, hsame₁, ha⟩
  apply Ends.bind (brBits_spec 5 br₁ hok₁ (by omega))
  rintro b br₂ ⟨hok₂, hsame₂, hb⟩
  have ha32 : -1 ≤ a ∧ a < 32 := by
    rcases ha with ⟨w, hw, -, rfl⟩ | ⟨-, rfl, -⟩
    · have := value_lt w
      rw [hw] at this
      omega
    · omega
  have hb32 : -1 ≤ b ∧ b < 32 := by
    rcases hb with ⟨w, hw, -, rfl⟩ | ⟨-, rfl, -⟩
    · have := value_lt w
      rw [hw] at this
      omega
    · omega
  apply Ends.bind (readCodeLengths_sound (a + 257) (b + 1) br₂ hok₂ (by omega))
  rintro r br₃ ⟨hok₃, hsame₃, rfl | ⟨lit, sent, items, ws, rfl, hlen, hs4, hs19, hs8, hrest₃, hitems⟩⟩
  · exact Ends.pure ⟨hok₃, (hsame₁.trans hsame₂).trans hsame₃, Or.inl rfl⟩
  · have hmany : 16 ≤ br₂.rest.length := by
      rw [hrest₃]
      simp only [List.length_append, field_length, fields_length]
      omega
    rcases hb with ⟨w₂, hw₂, hrest₂, rfl⟩ | ⟨hshort, -, hrest₂⟩
    · rcases ha with ⟨w₁, hw₁, hrest₁, rfl⟩ | ⟨hshort, -, hrest₁⟩
      · have hv₁ : value w₁ < 32 := by omega
        have hv₂ : value w₂ < 32 := by omega
        have hnl : ((value w₁ : Int) + 257).toNat = value w₁ + 257 := by omega
        have hnd : ((value w₂ : Int) + 1).toNat = value w₂ + 1 := by omega
        have htot : ((value w₁ : Int) + 257 + ((value w₂ : Int) + 1)).toNat =
          (value w₁ + 257) + (value w₂ + 1) := by omega
        rw [htot] at hitems
        simp only [hnl, hnd]
        have hdist : ((lit.drop (value w₁ + 257)).take (value w₂ + 1)).length = value w₂ + 1 := by
          simp
          omega
        have hlit : (lit.take (value w₁ + 257)).length = value w₁ + 257 := by
          simp
          omega
        apply Ends.copyTo_bind (by omega) (by omega)
        apply Ends.bind (huffBuild_spec lit (value w₁ + 257) br₃ (by omega) (by omega))
        rintro hl br₄ ⟨rfl, hhl⟩
        apply Ends.bind (huffBuild_spec _ (value w₂ + 1) br₄
          (by rw [List.length_append, hdist]; omega) (by omega))
        rintro hd br₅ ⟨rfl, hhd⟩
        rw [List.take_left' hdist] at hhd
        rw [List.take_add] at hitems
        refine Ends.pure ⟨hok₃, (hsame₁.trans hsame₂).trans hsame₃, Or.inr ⟨hl, hd, _, _, _, rfl,
          hhl, hhd, EncHeader.mk sent items ws (by omega) (by omega) ⟨hs4, hs19⟩ hs8 (by simp)
            (by rw [hlit, hdist]; exact hitems), ?_⟩⟩
        have hf₁ : field 5 (value w₁) = w₁ := by rw [← hw₁, field_value]
        have hf₂ : field 5 (value w₂) = w₂ := by rw [← hw₂, field_value]
        rw [hlit, hdist, Nat.add_sub_cancel, Nat.add_sub_cancel, hf₁, hf₂, hrest₁, hrest₂, hrest₃]
        simp only [List.append_assoc]
      · rw [← hrest₁, hrest₂, List.length_append] at hshort
        omega
    · rw [← hrest₂] at hshort
      omega

theorem readDynamic_complete (rfc : Bool) (litLens distLens : List Nat) (hs tail : List Bool)
    (dst : List Nat) (hdst : dst.length = 32) (br : Br) (h : br.Ok)
    (hheader : EncHeader rfc litLens distLens hs) (hrest : br.rest = hs ++ tail) :
    Ends (readDynamic dst) br fun r br' => br'.Ok ∧ br.Same br' ∧ br'.rest = tail ∧
      ∃ hl hd : Huff, r = some (hl, hd) ∧ hl.Holds litLens ∧ hd.Holds distLens := by
  obtain ⟨sent, items, ws, hlit, hdist, hsent, hlt8, -, hitems⟩ := hheader
  simp only [List.append_assoc] at hrest
  have hread := brBits_read (field 5 (litLens.length - 257)) _ br h (by simp) hrest
  rw [field_length, value_field, Nat.mod_eq_of_lt (by omega)] at hread
  apply Ends.bind hread
  rintro _ br₁ ⟨hok₁, hsame₁, rfl, hrest₁⟩
  have hread' := brBits_read (field 5 (distLens.length - 1)) _ br₁ hok₁ (by simp) hrest₁
  rw [field_length, value_field, Nat.mod_eq_of_lt (by omega)] at hread'
  apply Ends.bind hread'
  rintro _ br₂ ⟨hok₂, hsame₂, rfl, hrest₂⟩
  have hnl : ((litLens.length - 257 : Nat) : Int) + 257 = litLens.length := by omega
  have hnd : ((distLens.length - 1 : Nat) : Int) + 1 = distLens.length := by omega
  have htot : ((litLens.length : Int) + distLens.length).toNat =
    litLens.length + distLens.length := by omega
  simp only [hnl, hnd, Int.toNat_natCast]
  rw [← htot] at hitems
  apply Ends.bind (readCodeLengths_complete rfc litLens.length distLens.length sent _ items ws tail
    br₂ hok₂ (by omega) hsent hlt8 hitems hrest₂)
  rintro r br₃ ⟨hok₃, hsame₃, hrest₃, lit, rfl, hlen, htake⟩
  rw [htot, List.take_add] at htake
  obtain ⟨htake₁, htake₂⟩ := List.append_inj htake (by simp; omega)
  apply Ends.copyTo_bind (by omega) (by omega)
  apply Ends.bind (huffBuild_spec lit litLens.length br₃ (by omega) (by omega))
  rintro hl br₄ ⟨rfl, hhl⟩
  rw [htake₁] at hhl
  rw [htake₂]
  apply Ends.bind (huffBuild_spec (distLens ++ dst.drop distLens.length) distLens.length br₄
    (by simp) (by omega))
  rintro hd br₅ ⟨rfl, hhd⟩
  rw [List.take_left] at hhd
  exact Ends.pure ⟨hok₃, (hsame₁.trans hsame₂).trans hsame₃, hrest₃, hl, hd, rfl, hhl, hhd⟩

end Cage.Compress
