import Cage.User.Parse
import Mathlib.Data.List.Basic
import Mathlib.Tactic.Common

/-!
The grammar of `-u` and `-g`, stated apart from the parser, and that the parser
accepts it and nothing else.
-/

namespace Cage.User

open Cage.Util

/-- The number that digits spell. -/
def decimal (s : CStr) : Nat := s.foldl (fun v c => v * 10 + (c.toNat - 48)) 0

/-- An identity or a token: 1 to 255 bytes without a colon, and if all of them are
digits, a number that fits an id. -/
structure TokenOk (s : CStr) : Prop where
  some : 1 ≤ s.length
  short : s.length ≤ 255
  whole : colon ∉ s
  fits : allDigits s = true → decimal s ≤ 2 ^ 32 - 1

/-- A token as it is spelled: a number, or a name. -/
def spelled (s : CStr) : GroupToken :=
  if allDigits s then { name := none, gid := UInt32.ofNat (decimal s) }
  else { name := some s, gid := 0 }

/-- Tokens with a colon between them. -/
def joinColon : List CStr → CStr
  | [] => []
  | [t] => t
  | t :: ts => t ++ colon :: joinColon ts

/-- `s` is the colon list of `ts`. -/
def ColonList (s : CStr) (ts : List CStr) : Prop :=
  ts ≠ [] ∧ s = joinColon ts ∧ ∀ t ∈ ts, TokenOk t

/-- A `-g` argument, or what stands behind the colon of a `-u` argument. -/
def GroupArg (g : Option CStr) (ts : List CStr) : Prop :=
  (g = none ∨ g = some []) ∧ ts = [] ∨ ∃ s, g = some s ∧ ColonList s ts

/-- A user with an identity. -/
def identified (u : UserT) (id : CStr) : UserT :=
  if allDigits id then { u with uidFilled := true, uid := UInt32.ofNat (decimal id) }
  else { u with name := some id, nameGiven := true }

/-- A `-u` argument: what it makes of a user, and the tokens behind its colon. -/
def UserArg (s : Option CStr) (u u' : UserT) (ts : List CStr) : Prop :=
  (s = none ∨ s = some []) ∧ u' = { u with uidFilled := true, uid := 0 } ∧ ts = [] ∨
    ∃ id, TokenOk id ∧ u' = identified u id ∧ (s = some id ∧ ts = [] ∨
      ∃ rest, s = some (id ++ colon :: rest) ∧ GroupArg (some rest) ts)

/-- The arguments of `user_new` and the user they stand for. -/
def Parses (s g r : Option CStr) (u : UserT) : Prop :=
  ∃ u' gs us, UserArg s { UserT.zero with rootfs := r } u' us ∧ GroupArg g gs ∧
    u = { u' with groupTokens := (gs ++ us).map spelled }

theorem readDigits_all {s : CStr} (h : ∀ c ∈ s, isDigit c = true) (v : Nat) :
    readDigits v s = (s.foldl (fun v c => v * 10 + (c.toNat - 48)) v, []) := by
  induction s generalizing v with
  | nil => rfl
  | cons c s ih =>
    rw [readDigits, if_pos (h c List.mem_cons_self), List.foldl_cons]
    exact ih (fun d hd => h d (List.mem_cons_of_mem c hd)) _

theorem parseId_digits {s : CStr} (h : allDigits s = true) :
    parseId s = if decimal s ≤ 2 ^ 32 - 1 then some (UInt32.ofNat (decimal s)) else none := by
  have hall : ∀ c ∈ s, isDigit c = true := List.all_eq_true.mp (Bool.and_eq_true_iff.mp h).2
  have hread : readDigits 0 s = (decimal s, []) := readDigits_all hall 0
  unfold parseId strtoul
  rw [hread]
  dsimp only
  by_cases hlong : decimal s > 2 ^ 64 - 1
  · rw [if_pos hlong, if_neg (by omega)]
  · rw [if_neg hlong]
    by_cases hfits : decimal s ≤ 2 ^ 32 - 1
    · rw [if_pos hfits]
      exact if_neg (by simpa using hfits)
    · rw [if_neg hfits]
      exact if_pos (Or.inr (Nat.not_le.mp hfits))

theorem addToken_ok (t : List GroupToken) {a : CStr} (h : TokenOk a) :
    addToken t a = some (t ++ [spelled a]) := by
  have hsome := h.some
  have hshort := h.short
  unfold addToken parseOneToken spelled
  rw [if_neg (by omega), if_neg (by omega)]
  by_cases hdigits : allDigits a = true
  · rw [if_pos hdigits, if_pos hdigits, parseId_digits hdigits, if_pos (h.fits hdigits)]
    rfl
  · rw [if_neg hdigits, if_neg hdigits]
    rfl

theorem addToken_none (t : List GroupToken) {a : CStr} (hcolon : colon ∉ a) (h : ¬TokenOk a) :
    addToken t a = none := by
  unfold addToken parseOneToken
  by_cases hlen : a.length = 0
  · rw [if_pos hlen]
  · rw [if_neg hlen]
    by_cases hlong : a.length = 0 ∨ a.length ≥ 256
    · rw [if_pos hlong]
      rfl
    · rw [if_neg hlong]
      by_cases hdigits : allDigits a = true
      · rw [if_pos hdigits, parseId_digits hdigits, if_neg]
        · rfl
        · exact fun hfits => h ⟨by omega, by omega, hcolon, fun _ => hfits⟩
      · exact absurd ⟨by omega, by omega, hcolon, fun hyes => absurd hyes hdigits⟩ h

theorem fillTokens_word (t : List GroupToken) {a w : CStr} (h : colon ∉ w) (s : CStr) :
    fillTokens t a (w ++ s) = fillTokens t (a ++ w) s := by
  induction w generalizing a with
  | nil => rw [List.nil_append, List.append_nil]
  | cons c w ih =>
    rw [List.mem_cons, not_or] at h
    rw [List.cons_append, fillTokens, if_neg (Ne.symm h.1), ih h.2, List.append_assoc,
      List.singleton_append]

theorem joinColon_cons (a b : CStr) (ts : List CStr) :
    joinColon (a :: b :: ts) = a ++ colon :: joinColon (b :: ts) := rfl

theorem exists_joinColon (s : CStr) :
    ∃ ts, ts ≠ [] ∧ s = joinColon ts ∧ ∀ t ∈ ts, colon ∉ t := by
  induction s with
  | nil => exact ⟨[[]], List.cons_ne_nil _ _, rfl, by simp⟩
  | cons c s ih =>
    obtain ⟨ts, hne, rfl, hcolon⟩ := ih
    obtain ⟨t, ts, rfl⟩ := List.exists_cons_of_ne_nil hne
    rw [List.forall_mem_cons] at hcolon
    by_cases hc : c = colon
    · refine ⟨[] :: t :: ts, List.cons_ne_nil _ _, by rw [hc]; rfl, ?_⟩
      simpa using hcolon
    · refine ⟨(c :: t) :: ts, List.cons_ne_nil _ _, by cases ts <;> rfl, ?_⟩
      rw [List.forall_mem_cons, List.mem_cons, not_or]
      exact ⟨⟨Ne.symm hc, hcolon.1⟩, hcolon.2⟩

/-- The tokens of a list are added one by one, and one that is not ok ends it. -/
theorem fillTokens_join {ts : List CStr} (hne : ts ≠ []) (hcolon : ∀ t ∈ ts, colon ∉ t)
    (t t' : List GroupToken) :
    fillTokens t [] (joinColon ts) = some t' ↔
      (∀ a ∈ ts, TokenOk a) ∧ t' = t ++ ts.map spelled := by
  induction ts generalizing t with
  | nil => exact absurd rfl hne
  | cons a ts ih =>
    rw [List.forall_mem_cons] at hcolon ⊢
    cases ts with
    | nil =>
      have hword := fillTokens_word t (a := []) hcolon.1 []
      rw [List.append_nil, List.nil_append] at hword
      rw [joinColon, hword, fillTokens]
      by_cases ha : TokenOk a
      · simp [addToken_ok t ha, ha, eq_comm]
      · simp [addToken_none t hcolon.1 ha, ha]
    | cons b ts =>
      rw [joinColon_cons, fillTokens_word t hcolon.1, List.nil_append, fillTokens, if_pos rfl]
      by_cases ha : TokenOk a
      · rw [addToken_ok t ha]
        dsimp only
        rw [ih (List.cons_ne_nil b ts) hcolon.2]
        simp [ha]
      · simp [addToken_none t hcolon.1 ha, ha]

theorem countTokens_eq_zero (s : Option CStr) : countTokens s = 0 ↔ s = none ∨ s = some [] := by
  match s with
  | none | some [] => simp [countTokens]
  | some (c :: s) => simp [countTokens]

theorem ColonList.ne_nil {s : CStr} {ts : List CStr} (h : ColonList s ts) : s ≠ [] := by
  obtain ⟨hne, rfl, hok⟩ := h
  obtain ⟨t, ts, rfl⟩ := List.exists_cons_of_ne_nil hne
  have hsome : t ≠ [] := by
    rintro rfl
    exact absurd (hok [] List.mem_cons_self).some (by decide)
  cases ts with
  | nil => exact hsome
  | cons b ts => simp [joinColon_cons, hsome]

theorem GroupArg.of_empty {g : Option CStr} {ts : List CStr} (h : GroupArg g ts)
    (hempty : g = none ∨ g = some []) : ts = [] := by
  obtain ⟨-, hts⟩ | ⟨s, rfl, hs⟩ := h
  · exact hts
  · obtain hnone | hnil := hempty
    · cases hnone
    · exact absurd (Option.some.inj hnil) hs.ne_nil

theorem appendTokens_iff (t t' : List GroupToken) (g : Option CStr) :
    appendTokens t g = some t' ↔ ∃ ts, GroupArg g ts ∧ t' = t ++ ts.map spelled := by
  unfold appendTokens
  by_cases hzero : countTokens g = 0
  · rw [if_pos hzero]
    have hempty := (countTokens_eq_zero g).mp hzero
    constructor
    · intro h
      exact ⟨[], Or.inl ⟨hempty, rfl⟩, by simpa using (Option.some.inj h).symm⟩
    · rintro ⟨ts, hg, rfl⟩
      rw [hg.of_empty hempty, List.map_nil, List.append_nil]
  · rw [if_neg hzero]
    have hgiven := mt (countTokens_eq_zero g).mpr hzero
    cases g with
    | none => exact absurd (Or.inl rfl) hgiven
    | some s =>
      rw [Option.getD_some]
      constructor
      · intro h
        obtain ⟨ts, hne, rfl, hcolon⟩ := exists_joinColon s
        rw [fillTokens_join hne hcolon] at h
        exact ⟨ts, Or.inr ⟨_, rfl, hne, rfl, h.1⟩, h.2⟩
      · rintro ⟨ts, ⟨hempty, -⟩ | ⟨s', hs', hne, hjoin, hok⟩, rfl⟩
        · exact absurd hempty hgiven
        · cases hs'
          rw [hjoin, fillTokens_join hne fun t ht => (hok t ht).whole]
          exact ⟨hok, rfl⟩

theorem storeIdentity_iff (u u' : UserT) {id : CStr} (hsome : 1 ≤ id.length)
    (hshort : id.length ≤ 255) (hcolon : colon ∉ id) :
    storeIdentity u id = some u' ↔ TokenOk id ∧ u' = identified u id := by
  unfold storeIdentity identified
  by_cases hdigits : allDigits id = true
  · rw [if_pos hdigits, if_pos hdigits, parseId_digits hdigits]
    by_cases hfits : decimal id ≤ 2 ^ 32 - 1
    · have hok : TokenOk id := ⟨hsome, hshort, hcolon, fun _ => hfits⟩
      rw [if_pos hfits, Option.map_some]
      simp [hok, eq_comm]
    · have hnot : ¬TokenOk id := fun hok => hfits (hok.fits hdigits)
      rw [if_neg hfits]
      simp [hnot]
  · rw [if_neg hdigits, if_neg hdigits]
    have hok : TokenOk id := ⟨hsome, hshort, hcolon, fun hyes => absurd hyes hdigits⟩
    simp [hok, eq_comm]

/-- The identity is what stands before the colon, whatever follows it. -/
theorem parseUserIdentity_iff (u u' : UserT) {id tail : CStr} {c : Option CStr}
    (hcolon : colon ∉ id) (hlen : identityLength (id ++ tail) c = id.length) :
    parseUserIdentity u (id ++ tail) c = some u' ↔ TokenOk id ∧ u' = identified u id := by
  unfold parseUserIdentity
  dsimp only
  rw [hlen, List.take_left]
  by_cases hbad : id.length = 0 ∨ id.length ≥ 256
  · rw [if_pos hbad]
    constructor
    · intro h
      cases h
    · rintro ⟨hok, -⟩
      have hsome := hok.some
      have hshort := hok.short
      omega
  · rw [if_neg hbad]
    exact storeIdentity_iff u u' (by omega) (by omega) hcolon

theorem parseUserBody_empty (u u' : UserT) {s : Option CStr} (hs : s = none ∨ s = some [])
    (g : Option CStr) : parseUserBody u s g = some u' ↔ ∃ gs, GroupArg g gs ∧
      u' = { u with uidFilled := true, uid := 0,
                    groupTokens := u.groupTokens ++ gs.map spelled } := by
  have hbody : parseUserBody u s g = (appendTokens u.groupTokens g).map fun t =>
      { u with uidFilled := true, uid := 0, groupTokens := t } := by
    obtain rfl | rfl := hs <;> rfl
  rw [hbody, Option.map_eq_some_iff]
  constructor
  · rintro ⟨t, ht, rfl⟩
    obtain ⟨gs, hg, rfl⟩ := (appendTokens_iff _ _ g).mp ht
    exact ⟨gs, hg, rfl⟩
  · rintro ⟨gs, hg, rfl⟩
    exact ⟨_, (appendTokens_iff _ _ g).mpr ⟨gs, hg, rfl⟩, rfl⟩

theorem identified_groupTokens (u : UserT) (id : CStr) :
    (identified u id).groupTokens = u.groupTokens := by
  unfold identified
  split <;> rfl

/-- The three parts of an argument with an identity: the identity, the tokens of
`-g`, and those behind the colon. -/
theorem parseUserBody_some (u u' : UserT) {s : CStr} (hs : s ≠ []) (g : Option CStr) :
    parseUserBody u (some s) g = some u' ↔
      ∃ v t, parseUserIdentity u s (strchr s colon) = some v ∧
        appendTokens v.groupTokens g = some t ∧ match strchr s colon with
          | none => u' = { v with groupTokens := t }
          | some rest => ∃ t', appendTokens t (some rest.tail) = some t' ∧
              u' = { v with groupTokens := t' } := by
  obtain ⟨a, s, rfl⟩ := List.exists_cons_of_ne_nil hs
  unfold parseUserBody
  dsimp only
  cases parseUserIdentity u (a :: s) (strchr (a :: s) colon) with
  | none => simp
  | some v =>
    dsimp only
    cases happend : appendTokens v.groupTokens g with
    | none => simp [happend]
    | some t =>
      cases strchr (a :: s) colon with
      | none => simp [happend, eq_comm]
      | some rest =>
        rw [Option.map_eq_some_iff]
        simp [happend, eq_comm]

theorem parseUserBody_alone (u u' : UserT) {id : CStr} (hne : id ≠ []) (hcolon : colon ∉ id)
    (g : Option CStr) : parseUserBody u (some id) g = some u' ↔ TokenOk id ∧
      ∃ gs, GroupArg g gs ∧
        u' = { identified u id with groupTokens := u.groupTokens ++ gs.map spelled } := by
  have hidentity (v : UserT) :
      parseUserIdentity u id none = some v ↔ TokenOk id ∧ v = identified u id := by
    have h := parseUserIdentity_iff u v hcolon (show identityLength (id ++ []) none = _ by
      simp [identityLength])
    rwa [List.append_nil] at h
  rw [parseUserBody_some u u' hne, strchr_none hcolon]
  dsimp only
  constructor
  · rintro ⟨v, t, hid, ht, rfl⟩
    obtain ⟨hok, rfl⟩ := (hidentity v).mp hid
    obtain ⟨gs, hg, rfl⟩ := (appendTokens_iff _ _ g).mp ht
    exact ⟨hok, gs, hg, by rw [identified_groupTokens]⟩
  · rintro ⟨hok, gs, hg, rfl⟩
    refine ⟨_, _, (hidentity _).mpr ⟨hok, rfl⟩, (appendTokens_iff _ _ g).mpr ⟨gs, hg, rfl⟩, ?_⟩
    rw [identified_groupTokens]

theorem parseUserBody_suffix (u u' : UserT) {id : CStr} (hcolon : colon ∉ id) (rest : CStr)
    (g : Option CStr) : parseUserBody u (some (id ++ colon :: rest)) g = some u' ↔ TokenOk id ∧
      ∃ gs us, GroupArg g gs ∧ GroupArg (some rest) us ∧
        u' = { identified u id with groupTokens := u.groupTokens ++ (gs ++ us).map spelled } := by
  have hidentity (v : UserT) := parseUserIdentity_iff u v hcolon
    (show identityLength (id ++ colon :: rest) (some (colon :: rest)) = _ by
      simp [identityLength])
  rw [parseUserBody_some u u' (by simp), strchr_append hcolon]
  dsimp only [List.tail_cons]
  constructor
  · rintro ⟨v, t, hid, ht, t', ht', rfl⟩
    obtain ⟨hok, rfl⟩ := (hidentity v).mp hid
    obtain ⟨gs, hg, rfl⟩ := (appendTokens_iff _ _ g).mp ht
    obtain ⟨us, hu, rfl⟩ := (appendTokens_iff _ _ _).mp ht'
    refine ⟨hok, gs, us, hg, hu, ?_⟩
    rw [identified_groupTokens, List.map_append, List.append_assoc]
  · rintro ⟨hok, gs, us, hg, hu, rfl⟩
    refine ⟨_, _, (hidentity _).mpr ⟨hok, rfl⟩, (appendTokens_iff _ _ g).mpr ⟨gs, hg, rfl⟩,
      _, (appendTokens_iff _ _ _).mpr ⟨us, hu, rfl⟩, ?_⟩
    rw [identified_groupTokens, List.map_append, List.append_assoc]

theorem TokenOk.ne_nil {s : CStr} (h : TokenOk s) : s ≠ [] :=
  List.length_pos_iff.mp h.some

theorem userNew_parses {s g r : Option CStr} {u : UserT} (h : userNew s g r = some u) :
    Parses s g r u := by
  unfold userNew at h
  by_cases hs : s = none ∨ s = some []
  · obtain ⟨gs, hg, rfl⟩ := (parseUserBody_empty _ u hs g).mp h
    exact ⟨_, gs, [], Or.inl ⟨hs, rfl, rfl⟩, hg, by simp [UserT.zero]⟩
  · rw [not_or] at hs
    obtain ⟨w, rfl⟩ := Option.ne_none_iff_exists'.mp hs.1
    have hw : w ≠ [] := fun hnil => hs.2 (by rw [hnil])
    by_cases hcolon : colon ∈ w
    · obtain ⟨id, rest, rfl, hid⟩ := List.eq_append_cons_of_mem hcolon
      obtain ⟨hok, gs, us, hg, hu, rfl⟩ := (parseUserBody_suffix _ u hid rest g).mp h
      exact ⟨_, gs, us, Or.inr ⟨id, hok, rfl, Or.inr ⟨rest, rfl, hu⟩⟩, hg, by simp [UserT.zero]⟩
    · obtain ⟨hok, gs, hg, rfl⟩ := (parseUserBody_alone _ u hw hcolon g).mp h
      exact ⟨_, gs, [], Or.inr ⟨w, hok, rfl, Or.inl ⟨rfl, rfl⟩⟩, hg, by simp [UserT.zero]⟩

theorem userNew_of_parses {s g r : Option CStr} {u : UserT} (h : Parses s g r u) :
    userNew s g r = some u := by
  unfold userNew
  obtain ⟨u', gs, us, ⟨hs, rfl, rfl⟩ | ⟨id, hok, rfl, ⟨rfl, rfl⟩ | ⟨rest, rfl, hu⟩⟩, hg, rfl⟩ := h
  · exact (parseUserBody_empty _ _ hs g).mpr ⟨gs, hg, by simp [UserT.zero]⟩
  · exact (parseUserBody_alone _ _ hok.ne_nil hok.whole g).mpr
      ⟨hok, gs, hg, by simp [UserT.zero]⟩
  · exact (parseUserBody_suffix _ _ hok.whole rest g).mpr
      ⟨hok, gs, us, hg, hu, by simp [UserT.zero]⟩

/-- The parser accepts the grammar, and makes of it the user that it stands for. -/
theorem userNew_iff (s g r : Option CStr) (u : UserT) :
    userNew s g r = some u ↔ Parses s g r u :=
  ⟨userNew_parses, userNew_of_parses⟩

end Cage.User
