import Cage.Lib.Runs
import Cage.Net.NftSetup
import Cage.Net.SetupAcks

/-!
Every start of a container sets up the NAT tables again. Over whole runs of set-ups the
rules hold each table once at most, whatever fails, and nothing else changes.
-/

namespace Cage.Net

open Lib.Runs Util

structure Chain where
  hook : UInt32
  priority : UInt32
  type : CStr
  rules : List (List CStr)
  deriving DecidableEq, Repr

/-- The chains of a table. -/
abbrev Chains := CStr → Option Chain

/-- The tables of each family. -/
abbrev Ruleset := UInt8 → CStr → Option Chains

namespace Ruleset

variable (t : Ruleset) (family : UInt8)

def set (name : CStr) (chains : Chains) : Ruleset :=
  Function.update t family (Function.update (t family) name (some chains))

/-- What a request makes of the rules, if it can be met. -/
def apply : NftCmd → Option Ruleset
  | .newTable name => if (t family name).isSome then none else some (t.set family name fun _ => none)
  | .newChain table name hook priority type => do
      let chains ← t family table
      match chains name with
      | some c => if c.hook = hook ∧ c.priority = priority ∧ c.type = type then some t else none
      | none => some (t.set family table (Function.update chains name (some ⟨hook, priority, type, []⟩)))
  | .newRule table chain exprs => do
      let chains ← t family table
      let c ← chains chain
      some (t.set family table (Function.update chains chain (some { c with rules := c.rules ++ [exprs] })))

def applyAll : List NftCmd → Ruleset → Option Ruleset
  | [], t => some t
  | cmd :: cmds, t => t.apply family cmd >>= applyAll cmds

/-- What a request makes is there already. -/
def There : NftCmd → Prop
  | .newTable name => t family name ≠ none
  | .newChain table name .. => ∃ chains, t family table = some chains ∧ chains name ≠ none
  | .newRule .. => False

end Ruleset

/-- The table of a container: whatever goes out is masqueraded. -/
def natTable : Chains :=
  Function.update (fun _ => none) nftChainName (some ⟨4, 100, lit "nat", [[lit "masq"]]⟩)

/-- The rules with the table of that family. -/
def withNat (family : UInt8) (t : Ruleset) : Ruleset := t.set family nftTableName natTable

/-- A datagram that answers a request with that error code, or with 0. -/
structure Answers (d : Bytes) (code : Int) : Prop where
  fits : d.length ≤ ackCap
  message : ∃ len, nlmsgOk d 0 d.length = .ok (some len) ∧ 36 ≤ len
  type : rd16 d 4 = .ok nlmsgError
  error : ∃ v, rd32 d 16 = .ok v ∧ intOfLong v = code

/-- What the kernel does with a batch, of which `rules` tells its rules: it answers the
beginning at least; it takes all of the requests, or none and says why; and that something is
there already it says of what is there. -/
structure Transacts {R : Type} (κ : Nftables R) (rules : R → Ruleset) : Prop where
  batch : ∀ r data family, Carries data family natCmds → ∃ codes, codes ≠ [] ∧
    List.Forall₂ Answers (κ.handle r data).2 codes ∧
    ((∀ code ∈ codes, code = 0) →
      (rules r).applyAll family natCmds = some (rules (κ.handle r data).1)) ∧
    ((∃ code ∈ codes, code ≠ 0) → rules (κ.handle r data).1 = rules r) ∧
    (-eexist ∈ codes → ∃ cmd ∈ natCmds, (rules r).There family cmd)

section Answered

theorem nftAckErrno_answers {d : Bytes} {code : Int} (h : Answers d code) :
    nftAckErrno (d.take ackCap) = .ok code := by
  obtain ⟨hfits, ⟨len, hok, hlen⟩, htype, v, hv, rfl⟩ := h
  have hlong : ¬ d.length < nlmsgHdrLen := by
    intro hshort
    unfold nlmsgOk at hok
    rw [if_pos hshort] at hok
    cases hok
  rw [List.take_of_length_le hfits]
  unfold nftAckErrno
  rw [if_neg hlong, hok]
  show (rd16 d 4 >>= fun type => if type ≠ nlmsgError then pure 0
    else if len < nlmsgHdrLen + 20 then pure (-einval) else rd32 d 16 >>= fun error => pure (intOfLong error)) = _
  rw [htype]
  show (if nlmsgError ≠ nlmsgError then pure 0 else if len < 36 then pure (-einval)
    else rd32 d 16 >>= fun error => pure (intOfLong error) : Rd Int) = _
  rw [if_neg (not_not_intro rfl), if_neg (by omega), hv]
  rfl

/-- What is left of the answers: one of the codes, and 0 where all are 0 and are heard. -/
theorem nftDrainRest_answers {recvs : Nat → Bool} {queue : List Bytes} {codes : List Int}
    (h : List.Forall₂ Answers queue codes) (n : Nat) (err : Int) :
    ∃ r, nftDrainRest recvs n queue err = .ok r ∧ (r = err ∨ r ∈ codes) ∧
      ((∀ n, recvs n = true) → r = 0 → err = 0 ∧ ∀ code ∈ codes, code = 0) := by
  induction h generalizing n err with
  | nil => exact ⟨err, rfl, .inl rfl, fun _ hzero => ⟨hzero, List.forall_mem_nil _⟩⟩
  | @cons d code queue codes hd _ ih =>
    unfold nftDrainRest
    cases hrecv : recvs n with
    | false =>
      exact ⟨err, rfl, .inl rfl, fun hall => absurd (hall n) (by rw [hrecv]; decide)⟩
    | true =>
      rw [nftAckErrno_answers hd]
      obtain ⟨r, hr, hfrom, hzero⟩ := ih (n + 1) (if code ≠ 0 ∧ err = 0 then code else err)
      refine ⟨r, hr, ?_, fun hall hr0 => ?_⟩
      · rcases hfrom with rfl | hmem
        · split
          · exact .inr List.mem_cons_self
          · exact .inl rfl
        · exact .inr (List.mem_cons_of_mem code hmem)
      · obtain ⟨herr, hcodes⟩ := hzero hall hr0
        split at herr
        · rename_i hnew
          exact absurd herr hnew.1
        · rename_i hold
          have hcode : code = 0 := not_not.mp fun hne => hold ⟨hne, herr⟩
          exact ⟨herr, List.forall_mem_cons.mpr ⟨hcode, hcodes⟩⟩

theorem nftRecvAck_answers (recvs : Nat → Bool) {queue : List Bytes} {codes : List Int}
    (hne : codes ≠ []) (h : List.Forall₂ Answers queue codes) :
    ∃ r, nftRecvAck recvs queue = .ok r ∧ (r = -1 ∨ r ∈ codes) ∧
      ((∀ n, recvs n = true) → r ∈ codes ∧ (r = 0 → ∀ code ∈ codes, code = 0)) := by
  unfold nftRecvAck
  cases hrecv : recvs 0 with
  | false => exact ⟨-1, rfl, .inl rfl, fun hall => absurd (hall 0) (by rw [hrecv]; decide)⟩
  | true =>
    cases h with
    | nil => exact absurd rfl hne
    | @cons d code queue codes hd hrest =>
      obtain ⟨r, hr, hfrom, hzero⟩ := nftDrainRest_answers hrest 1 code
      have hmem : r ∈ code :: codes := List.mem_cons.mpr hfrom
      refine ⟨r, ?_, .inr hmem, fun hall => ⟨hmem, fun hr0 => ?_⟩⟩
      · have hrun : (nftAckErrno (d.take ackCap) >>= nftDrainRest recvs 1 queue) = .ok r := by
          rw [nftAckErrno_answers hd]
          exact hr
        dsimp only
        rw [hrun]
        rfl
      · exact List.forall_mem_cons.mpr (hzero hall hr0)

end Answered

section Rules

variable {family : UInt8} {t u : Ruleset}

theorem set_apart (chains : Chains) {f : UInt8} {name n : CStr} (h : ¬ (f = family ∧ n = name)) :
    t.set family name chains f n = t f n := by
  unfold Ruleset.set
  by_cases hf : f = family
  · subst hf
    rw [Function.update_self, Function.update_of_ne fun hn => h ⟨rfl, hn⟩]
  · rw [Function.update_of_ne hf]

theorem set_self (t : Ruleset) (family : UInt8) (name : CStr) (chains : Chains) :
    t.set family name chains family name = some chains := by
  unfold Ruleset.set
  rw [Function.update_self, Function.update_self]

theorem set_set (t : Ruleset) (family : UInt8) (name : CStr) (chains chains' : Chains) :
    (t.set family name chains).set family name chains' = t.set family name chains' := by
  unfold Ruleset.set
  rw [Function.update_self, Function.update_idem, Function.update_idem]

/-- Where the table is not there the requests make it. -/
theorem applyAll_absent (h : t family nftTableName = none) :
    t.applyAll family natCmds = some (withNat family t) := by
  simp only [natCmds, Ruleset.applyAll, Ruleset.apply, h, set_self, set_set, Option.isSome_none,
    Bool.false_eq_true, if_false, Option.bind_eq_bind, Option.bind_some, Function.update_self,
    Function.update_idem, List.nil_append]
  rfl

theorem applyAll_nat (h : t.applyAll family natCmds = some u) : u = withNat family t := by
  cases hthere : t family nftTableName with
  | none => exact Option.some.inj (h.symm.trans (applyAll_absent hthere))
  | some chains =>
    simp only [natCmds, Ruleset.applyAll, Ruleset.apply, hthere, Option.isSome_some, if_true,
      Option.bind_eq_bind, Option.bind_none, reduceCtorEq] at h

theorem there_nat {cmd : NftCmd} (hcmd : cmd ∈ natCmds) (h : t.There family cmd) :
    t family nftTableName ≠ none := by
  rcases List.mem_cons.mp hcmd with rfl | hcmd
  · exact h
  · rcases List.mem_cons.mp hcmd with rfl | hcmd
    · obtain ⟨chains, hchains, -⟩ := h
      rw [hchains]
      exact Option.some_ne_none _
    · cases List.mem_singleton.mp hcmd
      exact h.elim

end Rules

/-- One of the set-ups. -/
def natSetup {R : Type} (κ : Nftables R) (six : Bool) (e : NftEnv) (r : R) : Except Halt (Int × R) :=
  if six then netSetupNat6 κ e r else netSetupNat κ e r

def natFamily (six : Bool) : UInt8 := if six then afInet6 else afInet

def natStep {R : Type} (κ : Nftables R) (r : R) (act : Bool × NftEnv) : Option R :=
  match natSetup κ act.1 act.2 r with
  | .ok (_, r') => some r'
  | .error _ => none

/-- Each table of a container is there once at most, and all the others are as they were. -/
structure Once (before after : Ruleset) : Prop where
  ours : ∀ six, after (natFamily six) nftTableName = none ∨
    after (natFamily six) nftTableName = some natTable
  others : ∀ family name, ¬ (name = nftTableName ∧ ∃ six, family = natFamily six) →
    after family name = before family name

section Runs

variable {R : Type} {κ : Nftables R} {rules : R → Ruleset}

/-- What a set-up has done that has returned `err`. -/
structure Done (rules : R → Ruleset) (family : UInt8) (e : NftEnv) (r r' : R) (err : Int) : Prop where
  either : rules r' = rules r ∨ rules r' = withNat family (rules r)
  /-- what it says is so, if it has heard all answers -/
  said : (∀ n, e.recvs n = true) →
    err = 0 ∧ (rules r' = withNat family (rules r) ∨
      rules r' = rules r ∧ rules r family nftTableName ≠ none) ∨
    err = -1 ∧ rules r' = rules r

/-- A set-up that gets to it hands over a batch with the requests, and tells what is said of it. -/
theorem natSetup_sends (six : Bool) (e : NftEnv) :
    ∃ data, Carries data (natFamily six) natCmds ∧ ∀ (κ : Nftables R) r,
      natSetup κ six e r =
        if e.opens ∧ e.sends then
          (nftRecvAck e.recvs (κ.handle r data).2).map fun err =>
            (if err = 0 ∨ err = -eexist then 0 else -1, (κ.handle r data).1)
        else .ok (-1, r) := by
  obtain ⟨b, hs, hbuild, hlen, -⟩ := nftBuild_puts e.stack (natFamily six)
  obtain ⟨b', hend⟩ : ∃ b', nftBatchEnd b = some b' := by
    unfold nftBatchEnd
    rw [hlen]
    exact ⟨_, rfl⟩
  refine ⟨span b'.data 0 b'.len, nftBuild_carries hbuild hend, fun κ r => ?_⟩
  have hsetup : natSetup κ six e r = nftSetupFamily κ e (natFamily six) r := by cases six <;> rfl
  rw [hsetup]
  unfold nftSetupFamily nftBatchFlush
  rw [hbuild]
  dsimp only
  rw [hend]
  cases e.opens with
  | false => rfl
  | true =>
    cases e.sends with
    | false => rfl
    | true =>
      rw [if_pos rfl, if_pos ⟨rfl, rfl⟩]
      dsimp only
      rw [if_pos rfl]
      cases nftRecvAck e.recvs (κ.handle r (span b'.data 0 b'.len)).2 with
      | error h => rfl
      | ok err => rfl

theorem natSetup_done (hκ : Transacts κ rules) (six : Bool) (e : NftEnv) (r : R) :
    ∃ err r', natSetup κ six e r = .ok (err, r') ∧ Done rules (natFamily six) e r r' err := by
  obtain ⟨data, hcarries, hsetup⟩ := natSetup_sends (R := R) six e
  rw [hsetup κ r]
  by_cases hgets : e.opens = true ∧ e.sends = true
  · obtain ⟨codes, hne, hanswers, htaken, hnone, hthere⟩ := hκ.batch r _ _ hcarries
    obtain ⟨err, herr, hfrom, hheard⟩ := nftRecvAck_answers e.recvs hne hanswers
    rw [if_pos hgets, herr]
    refine ⟨_, _, rfl, ?_, fun hall => ?_⟩
    · by_cases hzero : ∀ code ∈ codes, code = 0
      · exact .inr (applyAll_nat (htaken hzero))
      · exact .inl (hnone (by simpa only [not_forall, exists_prop] using hzero))
    · obtain ⟨hmem, hall0⟩ := hheard hall
      by_cases hzero : err = 0
      · rw [if_pos (.inl hzero)]
        exact .inl ⟨rfl, .inl (applyAll_nat (htaken (hall0 hzero)))⟩
      · have hsame := hnone ⟨err, hmem, hzero⟩
        by_cases hexist : err = -eexist
        · obtain ⟨cmd, hcmd, hcthere⟩ := hthere (hexist ▸ hmem)
          rw [if_pos (.inr hexist)]
          exact .inl ⟨rfl, .inr ⟨hsame, there_nat hcmd hcthere⟩⟩
        · rw [if_neg fun h => h.elim hzero hexist]
          exact .inr ⟨rfl, hsame⟩
  · rw [if_neg hgets]
    exact ⟨-1, r, rfl, .inl rfl, fun _ => .inr ⟨rfl, rfl⟩⟩

/-- A set-up keeps it. -/
theorem Once.step {before t u : Ruleset} {six : Bool} (h : Once before t)
    (hu : u = t ∨ u = withNat (natFamily six) t) : Once before u := by
  rcases hu with rfl | rfl
  · exact h
  · refine ⟨fun six' => ?_, fun family name hother => ?_⟩
    · by_cases hsame : natFamily six' = natFamily six
      · rw [hsame]
        exact .inr (set_self ..)
      · have hapart : withNat (natFamily six) t (natFamily six') nftTableName = t (natFamily six') nftTableName :=
          set_apart _ fun h => hsame h.1
        rw [hapart]
        exact h.ours six'
    · have hapart : withNat (natFamily six) t family name = t family name :=
        set_apart _ fun h => hother ⟨h.2, six, h.1⟩
      rw [hapart]
      exact h.others family name hother

/-- Set-ups of either family, in any order, of which any call may fail at any time: the rules
hold the table of a family once at most, and all other tables as they were. A set-up never
waits for ever; one that hears the answers and returns 0 has left the table there, and one
that returns an error has changed nothing. -/
theorem nat_once (hκ : Transacts κ rules) {r₀ r : R}
    (hnone : ∀ six, rules r₀ (natFamily six) nftTableName = none) (hrun : Run (natStep κ) Any r₀ r) :
    Once (rules r₀) (rules r) ∧
      ∀ six e, ∃ err r', natSetup κ six e r = .ok (err, r') ∧ ((∀ n, e.recvs n = true) →
        err = 0 ∧ rules r' = withNat (natFamily six) (rules r) ∨ err = -1 ∧ rules r' = rules r) := by
  have honce : Once (rules r₀) (rules r) := by
    refine hrun.invariant (fun r => Once (rules r₀) (rules r))
      ⟨fun six => .inl (hnone six), fun _ _ _ => rfl⟩ fun s act s' hs _ hstep => ?_
    obtain ⟨err, r', hsetup, hdone⟩ := natSetup_done hκ act.1 act.2 s
    unfold natStep at hstep
    rw [hsetup] at hstep
    cases hstep
    exact hs.step hdone.either
  refine ⟨honce, fun six e => ?_⟩
  obtain ⟨err, r', hsetup, hdone⟩ := natSetup_done hκ six e r
  refine ⟨err, r', hsetup, fun hall => ?_⟩
  rcases hdone.said hall with ⟨hzero, hmade | ⟨hsame, hthere⟩⟩ | hfailed
  · exact .inl ⟨hzero, hmade⟩
  · have htable : rules r (natFamily six) nftTableName = some natTable :=
      (honce.ours six).resolve_left hthere
    refine .inl ⟨hzero, ?_⟩
    unfold withNat Ruleset.set
    rw [hsame, ← htable, Function.update_eq_self, Function.update_eq_self]
  · exact .inr hfailed

end Runs

/-- A kernel that knows the requests of a container only, and looks at the family of them. -/
def natKernel : Nftables Ruleset where
  handle t data :=
    match walkMsgs data with
    | .ok (_ :: h :: _) =>
        if (t (h.body.headD 0) nftTableName).isSome then (t, [ackMsg [] (-eexist)])
        else (withNat (h.body.headD 0) t, [ackMsg [] 0])
    | _ => (t, [])

theorem natKernel_handle {family : UInt8} {data : Bytes} (h : Carries data family natCmds) (t : Ruleset) :
    natKernel.handle t data = if (t family nftTableName).isSome then (t, [ackMsg [] (-eexist)])
      else (withNat family t, [ackMsg [] 0]) := by
  obtain ⟨hs, last, hwalk, -, hsays⟩ := h
  cases hsays with
  | @cons m _ hs _ hm _ =>
    have hhead : m.body.headD 0 = family := by
      have htake := hm.family
      cases hbody : m.body with
      | nil =>
        rw [hbody] at htake
        cases htake
      | cons c cs =>
        rw [hbody] at htake
        exact (List.cons.inj htake).1
    unfold natKernel
    dsimp only
    rw [hwalk]
    dsimp only [List.cons_append]
    rw [hhead]

theorem ack_answers : Answers (ackMsg [] 0) 0 :=
  ⟨by decide, ⟨36, rfl, Nat.le_refl 36⟩, rfl, 0, rfl, by decide⟩

theorem exist_answers : Answers (ackMsg [] (-eexist)) (-eexist) :=
  ⟨by decide, ⟨36, rfl, Nat.le_refl 36⟩, rfl, 4294967279, rfl, by decide⟩

theorem natKernel_transacts : Transacts natKernel id where
  batch t data family h := by
    rw [natKernel_handle h]
    cases hthere : t family nftTableName with
    | none =>
      refine ⟨[0], List.cons_ne_nil _ _, .cons ack_answers .nil, fun _ => applyAll_absent hthere,
        fun hne => ?_, fun hmem => ?_⟩
      · obtain ⟨code, hmem, hne⟩ := hne
        exact absurd (List.mem_singleton.mp hmem) hne
      · exact absurd (List.mem_singleton.mp hmem) (by decide)
    | some chains =>
      refine ⟨[-eexist], List.cons_ne_nil _ _, .cons exist_answers .nil, fun hzero => ?_, fun _ => rfl,
        fun _ => ⟨.newTable nftTableName, List.mem_cons_self, ?_⟩⟩
      · exact absurd (hzero _ (List.mem_singleton_self _)) (by decide)
      · show t family nftTableName ≠ none
        rw [hthere]
        exact Option.some_ne_none _

/-- All calls work, and the stack is not empty. -/
def allWorks : NftEnv := ⟨true, true, fun _ => true, fun _ => 0xaa⟩

def noTables : Ruleset := fun _ _ => none

theorem natKernel_step : natStep natKernel noTables (false, allWorks) = some (withNat afInet noTables) := by
  obtain ⟨data, hcarries, hsetup⟩ := natSetup_sends (R := Ruleset) false allWorks
  unfold natStep
  rw [hsetup natKernel noTables, natKernel_handle hcarries]
  rfl

/-- After one set-up. -/
theorem nat_once_again : Once noTables (withNat afInet noTables) ∧
    ∀ six e, ∃ err r', natSetup natKernel six e (withNat afInet noTables) = .ok (err, r') ∧
      ((∀ n, e.recvs n = true) → err = 0 ∧ r' = withNat (natFamily six) (withNat afInet noTables) ∨
        err = -1 ∧ r' = withNat afInet noTables) :=
  nat_once natKernel_transacts (fun _ => rfl) (.tail _ _ _ .refl trivial natKernel_step)

end Cage.Net
