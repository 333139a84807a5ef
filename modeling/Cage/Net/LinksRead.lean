import Cage.Net.Links

/-!
What the readers make of the kernel's list, or of its beginning: the link of a name,
and the ids that the names of the links spell.
-/

namespace Cage.Net

open Util

section Names

theorem strcmpEq_withNul {nm name : CStr} (hnm : (0 : UInt8) ∉ nm) (hname : (0 : UInt8) ∉ name)
    (t : Bytes) : strcmpEq name (withNul nm ++ t) = .ok (decide (nm = name)) := by
  induction nm generalizing name with
  | nil =>
    cases name with
    | nil => rfl
    | cons c cs =>
      have hc : (0 : UInt8) ≠ c := fun h => hname (h ▸ List.mem_cons_self)
      show (if (0 : UInt8) = c then _ else _) = _
      rw [if_neg hc]
      rfl
  | cons b bs ih =>
    cases name with
    | nil =>
      have hb : ¬ b = 0 := fun h => hnm (h ▸ List.mem_cons_self)
      show Except.ok (decide (b = 0)) = _
      simp [hb]
    | cons c cs =>
      show (if b = c then strcmpEq cs (withNul bs ++ t) else _) = _
      by_cases hbc : b = c
      · rw [if_pos hbc, ih (fun h => hnm (List.mem_cons_of_mem b h))
          fun h => hname (List.mem_cons_of_mem c h)]
        simp [hbc]
      · rw [if_neg hbc]
        simp [hbc, pure, Except.pure]

theorem dropWhile_stop {p : UInt8 → Bool} {c : UInt8} (hc : p c = false) (a t : Bytes) :
    (a ++ c :: t).dropWhile p = a.dropWhile p ++ c :: t := by
  induction a with
  | nil => simp [hc]
  | cons b a ih =>
    rw [List.cons_append, List.dropWhile_cons, List.dropWhile_cons, ih]
    split <;> rfl

theorem takeWhile_stop {p : UInt8 → Bool} {c : UInt8} (hc : p c = false) (a t : Bytes) :
    (a ++ c :: t).takeWhile p = a.takeWhile p := by
  induction a with
  | nil => simp [hc]
  | cons b a ih =>
    rw [List.cons_append, List.takeWhile_cons, List.takeWhile_cons, ih]

/-- What `strtol` reads behind the white space. -/
def signless (t : Bytes) : Bytes := if t.head? = some 45 ∨ t.head? = some 43 then t.tail else t

theorem strtol_eq (s : CStr) : strtol s =
    if (signless (s.dropWhile isSpace)).takeWhile isDigit = [] then (0, s)
    else
      let v : Int := ((signless (s.dropWhile isSpace)).takeWhile isDigit).foldl
        (fun v c => v * 10 + (c.toNat - 48)) 0
      (if (s.dropWhile isSpace).head? = some 45 then max (-v) (-2 ^ 63) else min v (2 ^ 63 - 1),
        (signless (s.dropWhile isSpace)).dropWhile isDigit) := rfl

theorem signless_stop (a t : Bytes) : signless (a ++ 0 :: t) = signless a ++ 0 :: t := by
  unfold signless
  cases a with
  | nil => rfl
  | cons b a =>
    by_cases hb : b = 45 ∨ b = 43
    · simp [hb]
    · simp [hb]

theorem head?_stop (a t : Bytes) : (a ++ 0 :: t).head? = some 45 ↔ a.head? = some 45 := by
  cases a with
  | nil => simp
  | cons b a => rfl

/-- The terminating NUL ends the number. -/
theorem strtol_stop (text t : Bytes) :
    strtol (text ++ 0 :: t) = ((strtol text).1, (strtol text).2 ++ 0 :: t) := by
  have hspace : isSpace 0 = false := by decide
  have hdigit : isDigit 0 = false := by decide
  have hsign : (text.dropWhile isSpace ++ 0 :: t).head? = some 45 ↔
      (text.dropWhile isSpace).head? = some 45 := head?_stop _ t
  rw [strtol_eq, strtol_eq, dropWhile_stop hspace, signless_stop, takeWhile_stop hdigit,
    dropWhile_stop hdigit]
  by_cases hnone : (signless (text.dropWhile isSpace)).takeWhile isDigit = []
  · rw [if_pos hnone, if_pos hnone]
  · rw [if_neg hnone, if_neg hnone]
    dsimp only
    by_cases hneg : (text.dropWhile isSpace).head? = some 45
    · rw [if_pos hneg, if_pos (hsign.mpr hneg)]
    · rw [if_neg hneg, if_neg fun h => hneg (hsign.mp h)]

theorem strtol_subset (text : CStr) : (strtol text).2 ⊆ text := by
  have hdrop : text.dropWhile isSpace ⊆ text := (List.dropWhile_suffix isSpace).subset
  have hsign : signless (text.dropWhile isSpace) ⊆ text := by
    unfold signless
    split
    · exact fun x hx => hdrop (List.mem_of_mem_tail hx)
    · exact hdrop
  rw [strtol_eq]
  by_cases hnone : (signless (text.dropWhile isSpace)).takeWhile isDigit = []
  · rw [if_pos hnone]
    exact fun x hx => hx
  · rw [if_neg hnone]
    exact fun x hx => hsign ((List.dropWhile_suffix isDigit).subset hx)

/-- `parse_veth_id` of a name. -/
def vethId (name pre : CStr) : Int :=
  if pre <+: name then
    let text := name.drop pre.length
    let r := strtol text
    if r.2 = text ∨ r.2 ≠ [] then -1 else intOfLong r.1
  else -1

theorem not_numberText_stop (text t : Bytes) : ¬ NumberText (text ++ 0 :: t) := by
  rintro ⟨spaces, sign, digits, heq, hspaces, hsign, hdigits⟩
  have hmem : (0 : UInt8) ∈ spaces ++ (sign ++ digits) :=
    heq ▸ List.mem_append_right text List.mem_cons_self
  rcases List.mem_append.mp hmem with h | h
  · exact absurd (hspaces 0 h) (by decide)
  · rcases List.mem_append.mp h with h | h
    · rcases hsign with rfl | rfl | rfl
      · cases h
      · exact absurd h (by decide)
      · exact absurd h (by decide)
    · exact absurd (hdigits 0 h) (by decide)

/-- In front of the NUL of a string `strncmp` reads nothing but the string. -/
theorem strncmpEqAt_string {name pre : CStr} (hpre : (0 : UInt8) ∉ pre) (t : Bytes) :
    strncmpEqAt pre (name ++ 0 :: t) = .ok (strncmpEq name pre pre.length) := by
  by_cases hprefix : pre <+: name
  · rw [strncmpEq_length.mpr hprefix]
    obtain ⟨text, rfl⟩ := hprefix
    rw [List.append_assoc, strncmpEqAt_self]
  · have hshort : ¬ (name ++ 0 :: t) <+: pre := by
      rintro ⟨u, hu⟩
      exact hpre (hu ▸ List.mem_append_left u (List.mem_append_right name List.mem_cons_self))
    have hlong : ¬ pre <+: (name ++ 0 :: t) := by
      rintro ⟨u, hu⟩
      rcases List.append_eq_append_iff.mp hu with ⟨v, rfl, -⟩ | ⟨v, rfl, hv⟩
      · exact hprefix (List.prefix_append pre v)
      · cases v with
        | nil =>
          rw [List.append_nil] at hprefix
          exact hprefix (List.prefix_refl name)
        | cons b v =>
          cases hv
          exact hpre (List.mem_append_right name List.mem_cons_self)
    rw [strncmpEqAt_differs hshort hlong, Bool.eq_false_iff.mpr (mt strncmpEq_length.mp hprefix)]

theorem parseVethId_withNul {name pre : CStr} (hname : (0 : UInt8) ∉ name)
    (hpre : (0 : UInt8) ∉ pre) (t : Bytes) :
    parseVethId (withNul name ++ t) pre = .ok (vethId name pre) := by
  have hbytes : withNul name ++ t = name ++ 0 :: t := by
    rw [withNul, List.append_assoc]
    rfl
  rw [hbytes, parseVethId, strncmpEqAt_string hpre]
  unfold vethId
  by_cases hprefix : pre <+: name
  · obtain ⟨text, rfl⟩ := hprefix
    have htext : (0 : UInt8) ∉ text := fun h => hname (List.mem_append_right pre h)
    have hrest : (0 : UInt8) ∉ (strtol text).2 := fun h => htext (strtol_subset text h)
    have hat : strtolAt (text ++ 0 :: t) = .ok (strtol (text ++ 0 :: t)) := by
      unfold strtolAt
      rw [if_neg fun h => not_numberText_stop text t ((numberEnd_nil _).mp h)]
      rfl
    rw [if_pos (List.prefix_append pre text), strncmpEq_length.mpr (List.prefix_append pre text),
      List.append_assoc, List.drop_left, List.drop_left]
    show (strtolAt (text ++ 0 :: t) >>= fun r => if r.2 = text ++ 0 :: t ∨ r.2.head? ≠ some 0 then
      pure (-1) else pure (intOfLong r.1)) = _
    rw [hat, strtol_stop]
    show (if (strtol text).2 ++ 0 :: t = text ++ 0 :: t ∨ ((strtol text).2 ++ 0 :: t).head? ≠ some 0
      then pure (-1) else pure (intOfLong (strtol text).1)) = _
    have hend : ((strtol text).2 ++ 0 :: t).head? ≠ some 0 ↔ (strtol text).2 ≠ [] := by
      cases hr : (strtol text).2 with
      | nil => simp
      | cons b r =>
        have hb : ¬ b = 0 := fun h => hrest (hr ▸ h ▸ List.mem_cons_self)
        simp [hb]
    have hsame : (strtol text).2 ++ 0 :: t = text ++ 0 :: t ↔ (strtol text).2 = text :=
      List.append_left_inj _
    dsimp only
    by_cases hbad : (strtol text).2 = text ∨ (strtol text).2 ≠ []
    · rw [if_pos hbad, if_pos (hbad.imp hsame.mpr hend.mpr)]
      rfl
    · rw [if_neg hbad, if_neg fun h => hbad (h.imp hsame.mp hend.mp)]
      rfl
  · rw [if_neg hprefix, Bool.eq_false_iff.mpr (mt strncmpEq_length.mp hprefix)]
    rfl

end Names

section Bodies

variable {data : Bytes} {off : Nat} {t : Bytes}

/-- What the readers find of a message: its type, and behind its header what it
carries. -/
theorem Msg.read_at (m : Msg) (h : data.drop off = m.bytes ++ t) :
    rd16 data (off + 4) = .ok m.type.toNat ∧ data.drop (off + 16) = m.body ++ t := by
  simp only [Msg.bytes, List.append_assoc] at h
  have htype := drop_behind h
  have hbody := drop_behind (drop_behind htype)
  rw [m.head_length] at hbody
  exact ⟨rd16_le16 htype m.type.toNat_lt, hbody⟩

/-- The index and the attributes of a link. -/
theorem Link.read_at (l : Link) (h : data.drop off = l.msg.bytes ++ t) :
    rd32 data (off + 20) = .ok l.index.toNat ∧
      data.drop (off + 32) = l.attrs.flatMap NlAttr.bytes ++ t := by
  have hbody := (l.msg.read_at h).2
  simp only [Link.msg, Link.body, List.append_assoc] at hbody
  have hindex := drop_behind hbody
  have hattrs := drop_behind (drop_behind hindex)
  rw [l.kind_length] at hindex hattrs
  rw [l.flags_length] at hattrs
  exact ⟨rd32_le32 hindex l.index.toNat_lt, hattrs⟩

theorem Link.payload (l : Link) :
    linkPayload (16 + l.msg.body.length) = ((l.attrs.flatMap NlAttr.bytes).length : Nat) := by
  have hsmall := l.attrs_small
  have hlen : l.msg.body.length = 16 + (l.attrs.flatMap NlAttr.bytes).length := l.body_length
  unfold linkPayload intOfLong
  omega

theorem attrs_count (as : List NlAttr) : as.length ≤ (as.flatMap NlAttr.bytes).length := by
  induction as with
  | nil => exact Nat.le_refl 0
  | cons a as ih =>
    have hle := le_nlaAlign (4 + a.data.length)
    rw [List.flatMap_cons, List.length_append, NlAttr.bytes_length, List.length_cons]
    omega

/-- A step for the attribute with the name, and one for the others. -/
def nameStep {S : Type} (f : S → S × Bool) (g : S → S) (a : NlAttr) (s : S) : S × Bool :=
  if a.type.toNat = iflaIfname then f s else (g s, false)

theorem runAll_others {S : Type} (f : S → S × Bool) {g : S → S} {as bs : List NlAttr} {s : S}
    (hg : g s = s) (h : ∀ a ∈ as, a.type.toNat ≠ iflaIfname) :
    runAll (nameStep f g) (as ++ bs) s = runAll (nameStep f g) bs s := by
  induction as with
  | nil => rfl
  | cons a as ih =>
    have ha : nameStep f g a s = (s, false) := by
      rw [nameStep, if_neg (h a List.mem_cons_self), hg]
    rw [List.cons_append, runAll, ha]
    exact ih fun b hb => h b (List.mem_cons_of_mem a hb)

/-- Of the attributes of a link only the name counts. -/
theorem Link.runAll_attrs {S : Type} (l : Link) (f : S → S × Bool) {g : S → S} {s : S}
    (hg : g s = s) (hf : (f s).2 = false → g (f s).1 = (f s).1) :
    runAll (nameStep f g) l.attrs s = (f s).1 := by
  have hbefore : ∀ a ∈ l.before, a.type.toNat ≠ iflaIfname :=
    fun a ha => (l.others a (List.mem_append_left _ ha)).1
  have hafter : ∀ a ∈ l.after, a.type.toNat ≠ iflaIfname :=
    fun a ha => (l.others a (List.mem_append_right _ ha)).1
  have hname : nameStep f g l.nameAttr s = f s := if_pos rfl
  rw [Link.attrs, runAll_others f hg hbefore, runAll, hname]
  split
  · rfl
  · rename_i hstay
    rw [← List.append_nil l.after, runAll_others f (hf (Bool.eq_false_iff.mpr hstay)) hafter]
    rfl

/-- A body that looks at the name only, on the attributes of a link. -/
theorem Link.eachAttr_name {S : Type} (l : Link) {body : Nat → Nat → S → Rd (S × Bool)}
    {f : S → S × Bool} {g : S → S} {s : S}
    (hother : ∀ o len type s, rd16 data (o + 2) = .ok type → type ≠ iflaIfname →
      body o len s = .ok (g s, false))
    (hname : ∀ o len u s, rd16 data (o + 2) = .ok iflaIfname →
      data.drop (o + 4) = withNul l.name ++ u → body o len s = .ok (f s))
    (h : data.drop off = l.msg.bytes ++ t) (hg : g s = s)
    (hf : (f s).2 = false → g (f s).1 = (f s).1) :
    eachAttr data body ((linkPayload (16 + l.msg.body.length)).toNat + 1) (off + 32)
      (linkPayload (16 + l.msg.body.length)) s = .ok (f s).1 := by
  rw [l.payload, ← l.runAll_attrs f hg hf]
  refine eachAttr_all l.attrs _ _ t s l.attrs_fit (fun a ha o u s hu => ?_) (l.read_at h).2 ?_
  · obtain ⟨-, htype, v, hdata⟩ := a.read_at hu (l.attrs_fit a ha)
    by_cases hifname : a.type.toNat = iflaIfname
    · have hal : a = l.nameAttr := by
        rcases List.mem_append.mp ha with hb | hrest
        · exact absurd hifname (l.others a (List.mem_append_left _ hb)).1
        · rcases List.mem_cons.mp hrest with rfl | hb
          · rfl
          · exact absurd hifname (l.others a (List.mem_append_right _ hb)).1
      rw [hifname] at htype
      rw [nameStep, if_pos hifname]
      refine hname o _ v s htype ?_
      rw [hdata, hal]
      rfl
    · rw [nameStep, if_neg hifname]
      exact hother o _ _ s htype hifname
  · have hcount := attrs_count l.attrs
    omega

theorem linkHasName_link (l : Link) {name : CStr} (hname : (0 : UInt8) ∉ name)
    (h : data.drop off = l.msg.bytes ++ t) :
    linkHasName data (off + 32) (linkPayload (16 + l.msg.body.length)) name =
      .ok (decide (l.name = name)) := by
  refine l.eachAttr_name (f := fun _ => (decide (l.name = name), decide (l.name = name)))
    (g := fun _ => false) (fun o len type s htype hother => ?_)
    (fun o len u s htype hdata => ?_) h rfl Eq.symm
  · unfold hasNameBody
    rw [htype]
    simp only [bind, Except.bind, if_neg hother]
    rfl
  · unfold hasNameBody
    rw [htype, hdata, strcmpEq_withNul l.name_ends hname]
    rfl

/-- An id in its range is marked. -/
def mark (v : Int) (used : Used) : Used :=
  if v ≥ 0 ∧ v ≤ cageVethMaxId then Function.update used v.toNat true else used

theorem usedVethScanAttrs_link (l : Link) {pre : CStr} (hpre : (0 : UInt8) ∉ pre)
    (h : data.drop off = l.msg.bytes ++ t) (used : Used) :
    usedVethScanAttrs data (off + 32) (linkPayload (16 + l.msg.body.length)) pre used =
      .ok (mark (vethId l.name pre) used) := by
  refine l.eachAttr_name (f := fun used => (mark (vethId l.name pre) used, false)) (g := id)
    (fun o len type s htype hother => ?_) (fun o len u s htype hdata => ?_) h rfl fun _ => rfl
  · unfold scanBody
    rw [htype]
    simp only [bind, Except.bind, if_neg hother]
    rfl
  · unfold scanBody
    rw [htype, hdata, parseVethId_withNul l.name_ends hpre]
    show (if vethId l.name pre ≥ 0 ∧ vethId l.name pre ≤ cageVethMaxId then _ else _) = _
    unfold mark
    split <;> rfl

def doneStep (e : Entry) (_ : Bool) : Bool × Bool :=
  match e with
  | .link _ => (false, false)
  | .done .. => (true, true)

theorem doneBody_entry (e : Entry) (s : Bool) (h : data.drop off = e.msg.bytes ++ t) :
    doneBody data off (16 + e.msg.body.length) s = .ok (doneStep e s) := by
  have htype := (e.msg.read_at h).1
  unfold doneBody
  rw [htype]
  cases e with
  | link l => rfl
  | done m hm =>
    have hm' : (Entry.done m hm).msg.type.toNat = nlmsgDone := hm
    rw [hm']
    rfl

def findStep (name : CStr) (e : Entry) (_ : Option Nat) : Option Nat × Bool :=
  match e with
  | .link l => if l.name = name then (some l.index.toNat, true) else (none, false)
  | .done .. => (none, false)

theorem findBody_entry {name : CStr} (hname : (0 : UInt8) ∉ name) (e : Entry) (s : Option Nat)
    (h : data.drop off = e.msg.bytes ++ t) :
    findBody data name off (16 + e.msg.body.length) s = .ok (findStep name e s) := by
  have htype := (e.msg.read_at h).1
  unfold findBody
  rw [htype]
  cases e with
  | link l =>
    have hlink : (Entry.link l).msg.type.toNat = rtmNewlink := rfl
    have hbody : (Entry.link l).msg.body = l.msg.body := rfl
    simp only [bind, Except.bind, hlink, ne_eq, not_true_eq_false, if_false, hbody,
      linkHasName_link l hname h, findStep]
    by_cases hsame : l.name = name
    · simp [hsame, (l.read_at h).1, pure, Except.pure]
    · simp [hsame, pure, Except.pure]
  | done m hm =>
    have hm' : (Entry.done m hm).msg.type.toNat ≠ rtmNewlink := by
      show m.type.toNat ≠ rtmNewlink
      rw [hm]
      decide
    simp only [bind, Except.bind, ne_eq, hm', not_false_eq_true, if_true]
    rfl

def usedStep (pre : CStr) (e : Entry) (used : Used) : Used × Bool :=
  match e with
  | .link l => (mark (vethId l.name pre) used, false)
  | .done .. => (used, false)

theorem usedBody_entry {pre : CStr} (hpre : (0 : UInt8) ∉ pre) (e : Entry) (s : Used)
    (h : data.drop off = e.msg.bytes ++ t) :
    usedBody data pre off (16 + e.msg.body.length) s = .ok (usedStep pre e s) := by
  have htype := (e.msg.read_at h).1
  unfold usedBody
  rw [htype]
  cases e with
  | link l =>
    have hlink : (Entry.link l).msg.type.toNat = rtmNewlink := rfl
    have hbody : (Entry.link l).msg.body = l.msg.body := rfl
    simp only [bind, Except.bind, hlink, ne_eq, not_true_eq_false, if_false, hbody,
      usedVethScanAttrs_link l hpre h, usedStep]
    rfl
  | done m hm =>
    have hm' : (Entry.done m hm).msg.type.toNat ≠ rtmNewlink := by
      show m.type.toNat ≠ rtmNewlink
      rw [hm]
      decide
    simp only [bind, Except.bind, ne_eq, hm', not_false_eq_true, if_true]
    rfl

end Bodies

end Cage.Net
