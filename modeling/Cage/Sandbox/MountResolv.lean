import Mathlib.Logic.Function.Basic
import Cage.Lib.Ensures
import Cage.Sandbox.MountAll

/-!
The name servers of a cage: what a reader of `/etc/resolv.conf` finds in its root once
`setup_resolv` of `src/sandbox/setup.c` has succeeded. No two paths lead to one file, and
nobody else writes to them meanwhile.
-/

namespace Cage.Sandbox.MountAll

open Lib.Lines Lib.Program Util
open Function (update)

/-- What a reader of a path finds there. -/
abbrev Texts := CStr → Option CStr

/-- What the calls answer and leave. A call of which nothing is said may answer anything,
and leaves the files as they are. -/
def Shown : (c : MountCall) → Texts → c.Ret → Texts → Prop
  | .lstat p, s, r, s' =>
      (∀ size, r = .found true size → ∃ text, s p = some text ∧ text.length = size) ∧ s' = s
  | .ioReadCap p _, s, r, s' => (∀ text, r = some text → s p = some text) ∧ s' = s
  -- the path without links leads to the same file
  | .realpath p, s, r, s' => (∀ q, r = some q → s q = s p) ∧ s' = s
  -- `O_EXCL`
  | .mkstemp _, s, r, s' =>
      (r = none → s' = s) ∧ ∀ q, r = some q → s q = none ∧ s' = update s q (some [])
  | .write p data, s, r, s' =>
      (r = true → s' = update s p ((s p).map (· ++ data))) ∧ ∀ q, q ≠ p → s' q = s q
  | .ioTouch p, s, r, s' => s' = if r = 0 then update s p (some ((s p).getD [])) else s
  | .ioUnlink p, s, r, s' => s' = if r = 0 then update s p none else s
  | .unlink p, s, _, s' => s' = s ∨ s' = update s p none
  | .mount m, s, r, s' => s' = if r = 0 then update s m.target (m.src.bind s) else s
  | _, s, _, s' => s' = s

/-- A failure need not be followed. -/
theorem fails {I Q : Texts → Prop} :
    Ensures Shown I (pure (-1) : MntM Int) fun r s => r = 0 → Q s :=
  Ensures.pure fun _ _ h => absurd h (by decide)

section Replace

variable {p : CStr}

/-- There is a file at the path. -/
def There (p : CStr) (s : Texts) : Prop := ∃ text, s p = some text

theorem touch_there {s s' : Texts} {r : Int} (hthere : There p s) (hmay : Shown (.ioTouch p) s r s') :
    s' = s := by
  obtain ⟨text, htext⟩ := hthere
  have heq : s' = if r = 0 then update s p (some ((s p).getD [])) else s := hmay
  rw [heq, htext, Option.getD_some, ← htext, Function.update_eq_self, ite_self]

/-- `setup_resolv_bind` shows what the host's file says. -/
theorem setupResolvBind_shows (x : Option CStr) :
    Ensures Shown (fun s => There p s ∧ s hostResolv = x) (setupResolvBind p)
      fun r s => r = 0 → s p = x := by
  refine Ensures.bind (Q := fun r s => There p s ∧ ∀ q, r = some q → s q = x)
    (Ensures.call fun s r s' hs hmay => ?_) fun src => ?_
  · obtain ⟨hsrc, rfl⟩ := hmay
    exact ⟨hs.1, fun q hq => (hsrc q hq).trans hs.2⟩
  cases src with
  | none => exact fails
  | some src =>
    refine Ensures.bind (Q := fun _ s => s src = x) (Ensures.call fun s r s' hs hmay => ?_)
      fun r => Ensures.ite (fun _ => fails) fun _ => ?_
    · rw [touch_there hs.1 hmay]
      exact hs.2 src rfl
    refine Ensures.bind (Q := fun r s => r = 0 → s p = x) (Ensures.call fun s r s' hs hmay hr => ?_)
      fun r => Ensures.ite (fun _ => fails) fun hr => Ensures.pure fun s hs _ => ?_
    · have heq : s' = if r = 0 then update s p (s src) else s := hmay
      rw [heq, if_pos hr, Function.update_self]
      exact hs
    · exact hs (not_not.mp hr)

/-- `setup_resolv_file_bind` shows the default name servers. -/
theorem setupResolvFileBind_shows :
    Ensures Shown (There p) (setupResolvFileBind p) fun r s => r = 0 → s p = some defaultDns := by
  refine Ensures.bind (Q := fun r s => ∀ q, r = some q → q ≠ p ∧ s q = some [])
    (Ensures.call fun s r s' hs hmay q hq => ?_) fun tmp => ?_
  · obtain ⟨hfresh, rfl⟩ := hmay.2 q hq
    obtain ⟨text, htext⟩ := hs
    refine ⟨fun heq => ?_, Function.update_self ..⟩
    rw [heq, htext] at hfresh
    cases hfresh
  cases tmp with
  | none => exact fails
  | some tmp =>
    have hend (written : Bool) : Ensures Shown
        (fun s => tmp ≠ p ∧ (written = true → s tmp = some defaultDns)) (do
          let closed ← MntM.sys (.close tmp)
          let bound ← if written && closed then MntM.sys (.mount (resolvOf tmp p))
            else pure (-1)
          MntM.sys (.unlink tmp)
          if bound ≠ 0 then pure (-1) else pure 0)
        fun r s => r = 0 → s p = some defaultDns := by
      have hunlink (bound : Int) : Ensures Shown
          (fun s => tmp ≠ p ∧ (bound = 0 → s p = some defaultDns)) (do
            MntM.sys (.unlink tmp)
            if bound ≠ 0 then pure (-1) else pure 0)
          fun r s => r = 0 → s p = some defaultDns := by
        refine Ensures.bind (Q := fun _ s => bound = 0 → s p = some defaultDns)
          (Ensures.call fun s r s' hs hmay hr => ?_) fun _ => Ensures.ite
          (fun _ => fails) fun hr => Ensures.pure fun s hs _ => hs (not_not.mp hr)
        obtain rfl | rfl := hmay
        · exact hs.2 hr
        · rw [Function.update_of_ne hs.1.symm]
          exact hs.2 hr
      refine Ensures.bind (Ensures.still fun _ _ _ hmay => hmay) fun closed => Ensures.ite
        (fun hwhole => ?_) fun _ => ?_
      · refine Ensures.bind (Ensures.call fun s r s' hs hmay => ?_) hunlink
        refine ⟨hs.1, fun hr => ?_⟩
        have heq : s' = if r = 0 then update s p (s tmp) else s := hmay
        rw [heq, if_pos hr, Function.update_self]
        exact hs.2 (Bool.and_eq_true_iff.mp hwhole).1
      · have hne : (-1 : Int) ≠ 0 := by decide
        exact Ensures.bind (Ensures.pure fun s hs => ⟨hs.1, fun hr => absurd hr hne⟩) hunlink
    refine Ensures.bind (Ensures.still fun _ _ _ hmay => hmay) fun mode => Ensures.ite
      (fun _ => ?_) fun _ => ?_
    · refine Ensures.bind (Ensures.call fun s r s' hs hmay => ⟨(hs tmp rfl).1, fun hr => ?_⟩) hend
      rw [hmay.1 hr, Function.update_self, (hs tmp rfl).2]
      rfl
    · exact Ensures.bind (Ensures.pure fun s hs => ⟨(hs tmp rfl).1, fun hr => nomatch hr⟩) hend

end Replace

section Setup

variable {p : CStr} {s0 : Texts} {cfg : MountCfg}

/-- The file of the cage stays, since it is good enough. -/
def Stays (s0 : Texts) (p : CStr) (cfg : MountCfg) (s : Texts) : Prop :=
  s = s0 ∧ ∃ text, s0 p = some text ∧ text ≠ [] ∧ (cfg.unshareNet = true → hasRealNs text = true)

/-- There is a file over which another may be bound; the rest is as it was. -/
def Ready (s0 : Texts) (p : CStr) (s : Texts) : Prop := There p s ∧ ∀ q, q ≠ p → s q = s0 q

theorem Ready.touched {s s' : Texts} {r : Int} (hs : ∀ q, q ≠ p → s q = s0 q)
    (hmay : Shown (.ioTouch p) s r s') : r = 0 → Ready s0 p s' := by
  intro hr
  have heq : s' = if r = 0 then update s p (some ((s p).getD [])) else s := hmay
  rw [heq, if_pos hr]
  refine ⟨⟨_, Function.update_self ..⟩, fun q hq => ?_⟩
  rw [Function.update_of_ne hq]
  exact hs q hq

/-- `io_touch`, after which another file may be bound over this one. -/
theorem touch_reaches : Ensures Shown (fun s => ∀ q, q ≠ p → s q = s0 q) (do
      let r ← MntM.sys (.ioTouch p)
      if r ≠ 0 then pure (-1) else pure 1)
    fun r s => (r = 0 → Stays s0 p cfg s) ∧ (0 < r → Ready s0 p s) := by
  refine Ensures.bind (Ensures.call fun s r s' hs hmay => Ready.touched hs hmay) fun r =>
    Ensures.ite (fun _ => Ensures.pure fun s _ => ?_) fun hr => Ensures.pure fun s hs => ?_
  · exact ⟨fun h => absurd h (by decide), fun h => absurd h (by decide)⟩
  · exact ⟨fun h => absurd h (by decide), fun _ => hs (not_not.mp hr)⟩

theorem createResolvFile_reaches : Ensures Shown (· = s0) (createResolvFile p)
    fun r s => (r = 0 → Stays s0 p cfg s) ∧ (0 < r → Ready s0 p s) := by
  have hstart : ∀ s, s = s0 → ∀ q, q ≠ p → s q = s0 q := fun s hs q _ => by rw [hs]
  have hend (made : Int) : Ensures Shown (· = s0) (if made ≠ 0 then pure (-1) else do
      let r ← MntM.sys (.ioTouch p)
      if r ≠ 0 then pure (-1) else pure 1)
      fun r s => (r = 0 → Stays s0 p cfg s) ∧ (0 < r → Ready s0 p s) := by
    refine Ensures.ite (fun _ => Ensures.pure fun s _ => ?_) fun _ =>
      touch_reaches.conseq hstart fun _ _ h => h
    exact ⟨fun h => absurd h (by decide), fun h => absurd h (by decide)⟩
  unfold createResolvFile
  cases parentOf p with
  | none => exact Ensures.bind (Ensures.pure fun _ hs => hs) hend
  | some parent =>
    refine Ensures.bind (Ensures.still fun _ _ _ hmay => hmay) fun e => Ensures.ite
      (fun _ => ?_) fun _ => Ensures.bind (Ensures.pure fun _ hs => hs) hend
    exact Ensures.bind (Ensures.still fun _ _ _ hmay => hmay) hend

theorem resolvHasContent_reaches {s0 : Texts} : Ensures Shown (fun s => s = s0 ∧ There p s0)
    (resolvHasContent p) fun has s => (s = s0 ∧ There p s0) ∧
      (0 ≤ has → ∃ text, s0 p = some text ∧ has = if hasRealNs text then 1 else 0) := by
  refine Ensures.bind (Q := fun b s => (s = s0 ∧ There p s0) ∧ ∀ text, b = some text → s0 p = some text)
    (Ensures.call fun s r s' hs hmay => ?_) fun b => Ensures.pure fun s hs => ⟨hs.1, fun hhas => ?_⟩
  · obtain ⟨hread, rfl⟩ := hmay
    exact ⟨hs, hs.1 ▸ hread⟩
  cases b with
  | none => exact absurd hhas (by decide)
  | some text => exact ⟨text, hs.2 text rfl, rfl⟩

/-- `check_or_create_resolv` keeps the file only if it may stay. -/
theorem checkOrCreateResolv_reaches : Ensures Shown (· = s0) (checkOrCreateResolv p cfg)
    fun r s => (r = 0 → Stays s0 p cfg s) ∧ (0 < r → Ready s0 p s) := by
  have hfail : ∀ s, (( -1 : Int) = 0 → Stays s0 p cfg s) ∧ ((0 : Int) < -1 → Ready s0 p s) :=
    fun s => ⟨fun h => absurd h (by decide), fun h => absurd h (by decide)⟩
  refine Ensures.bind (Q := fun st s => s = s0 ∧
    ∀ size, st = .found true size → ∃ text, s0 p = some text ∧ text.length = size)
    (Ensures.call fun s r s' hs hmay => ?_) fun st => ?_
  · obtain ⟨hst, rfl⟩ := hmay
    exact ⟨hs, hs ▸ hst⟩
  cases st with
  | missing => exact createResolvFile_reaches.conseq (fun _ hs => hs.1) fun _ _ h => h
  | failed => exact Ensures.pure fun s _ => hfail s
  | found regular size =>
    cases regular with
    | false =>
      refine Ensures.bind (Q := fun _ s => ∀ q, q ≠ p → s q = s0 q)
        (Ensures.call fun s r s' hs hmay q hq => ?_) fun r => Ensures.ite
        (fun _ => Ensures.pure fun s _ => hfail s) fun _ => touch_reaches
      have heq : s' = if r = 0 then update s p none else s := hmay
      rw [heq, ← hs.1]
      split
      · rw [Function.update_of_ne hq]
      · rfl
    | true =>
      have hready (s : Texts) (hs : s = s0) (hthere : ∃ text, s0 p = some text) :
          ((1 : Int) = 0 → Stays s0 p cfg s) ∧ ((0 : Int) < 1 → Ready s0 p s) :=
        ⟨fun h => absurd h (by decide), fun _ => by rw [hs]; exact ⟨hthere, fun _ _ => rfl⟩⟩
      refine Ensures.ite (fun _ => Ensures.pure fun s hs => ?_) fun hsize => Ensures.ite
        (fun hshared => Ensures.pure fun s hs => ?_) fun _ => ?_
      · obtain ⟨hs, hfile⟩ := hs
        obtain ⟨text, htext, -⟩ := hfile size rfl
        exact hready s hs ⟨text, htext⟩
      · obtain ⟨hs, hfile⟩ := hs
        obtain ⟨text, htext, hlen⟩ := hfile size rfl
        refine ⟨fun _ => ⟨hs, text, htext, fun hnil => hsize ?_, fun hnet => ?_⟩,
          fun h => absurd h (by decide)⟩
        · rw [← hlen, hnil, List.length_nil]
        · rw [hnet] at hshared
          cases hshared
      · refine Ensures.bind (Q := fun has s => (s = s0 ∧ There p s0) ∧
          (0 ≤ has → ∃ text, s0 p = some text ∧ has = if hasRealNs text then 1 else 0))
          (resolvHasContent_reaches.conseq (fun s hs => ⟨hs.1, ?_⟩) fun _ _ h => h) fun has => ?_
        · obtain ⟨text, htext, -⟩ := hs.2 size rfl
          exact ⟨text, htext⟩
        refine Ensures.ite (fun _ => Ensures.pure fun s _ => hfail s) fun hneg => Ensures.ite
          (fun hpos => Ensures.pure fun s hs => ?_) fun _ => Ensures.pure fun s hs =>
          hready s hs.1.1 hs.1.2
        obtain ⟨text, htext, hhas⟩ := hs.2 (Int.not_lt.mp hneg)
        have hreal : hasRealNs text = true := by
          by_contra hno
          rw [if_neg hno] at hhas
          omega
        refine ⟨fun _ => ⟨hs.1.1, text, htext, fun hnil => ?_, fun _ => hreal⟩,
          fun h => absurd h (by decide)⟩
        rw [hnil] at hreal
        cases hreal

/-- `needs_default_dns` does without the default name servers only if the host has one. -/
theorem needsDefaultDns_reaches {I : Texts → Prop} : Ensures Shown I needsDefaultDns fun need s =>
    I s ∧ (need = false → ∃ text, s hostResolv = some text ∧ hasRealNs text = true) := by
  refine Ensures.bind (Q := fun b s => I s ∧ ∀ text, b = some text → s hostResolv = some text)
    (Ensures.call fun s r s' hs hmay => ?_) fun b => Ensures.pure fun s hs => ⟨hs.1, fun hneed => ?_⟩
  · obtain ⟨hread, rfl⟩ := hmay
    exact ⟨hs, hread⟩
  cases b with
  | none => cases hneed
  | some text => exact ⟨text, hs.2 text rfl, (Bool.not_eq_false' _).mp hneed⟩

/-- What the cage shows, once another file has been bound over its own. -/
def Replaced (s0 : Texts) (p : CStr) (cfg : MountCfg) (s : Texts) : Prop :=
  (cfg.unshareNet = true → ∃ text, s p = some text ∧ hasRealNs text = true) ∧
    (cfg.unshareNet = false → p ≠ hostResolv → s p = s0 hostResolv)

theorem doResolvReplace_reaches : Ensures Shown (Ready s0 p) (doResolvReplace p cfg)
    fun r s => r = 0 → Replaced s0 p cfg s := by
  have hbind (x : Option CStr) (hx : ∀ s, s p = x → Replaced s0 p cfg s) :
      Ensures Shown (fun s => There p s ∧ s hostResolv = x) (setupResolvBind p)
        fun r s => r = 0 → Replaced s0 p cfg s :=
    (setupResolvBind_shows x).conseq (fun _ h => h) fun r s h hr => hx s (h hr)
  refine Ensures.ite (fun hnet => ?_) fun hnet => ?_
  · refine Ensures.bind needsDefaultDns_reaches fun need => Ensures.ite (fun _ => ?_) fun hneed => ?_
    · refine setupResolvFileBind_shows.conseq (fun s hs => hs.1.1) fun r s h hr => ⟨fun _ => ?_, ?_⟩
      · exact ⟨defaultDns, h hr, by decide⟩
      · exact fun hno => absurd (hnet.symm.trans hno) (by decide)
    · intro s hs
      obtain ⟨text, htext, hreal⟩ := hs.2 (Bool.eq_false_iff.mpr hneed)
      refine hbind (some text) (fun s hs => ⟨fun _ => ⟨text, hs, hreal⟩, fun hno => ?_⟩) s
        ⟨hs.1.1, htext⟩
      exact absurd (hnet.symm.trans hno) (by decide)
  · refine Ensures.bind (Q := fun need s => need = false ∧ Ready s0 p s)
      (Ensures.pure fun s hs => ⟨rfl, hs⟩) fun need => Ensures.ite (fun hneed s hs => ?_)
      fun _ s hs => ?_
    · exact absurd (hneed.symm.trans hs.1) (by decide)
    · refine hbind (s hostResolv) (fun s' hs' => ⟨fun hyes => absurd hyes hnet, fun _ hne => ?_⟩) s
        ⟨hs.2.1, rfl⟩
      rw [hs', hs.2.2 _ hne.symm]

end Setup

/-- Where the cage has a network of its own, its file names a server that is not on
loopback; where it shares that of the host, it says what it said before, if that was
anything, or what the host's file says. -/
theorem setupResolv_shows (root : CStr) (cfg : MountCfg) (s : Texts) :
    (setupResolv root cfg).Wp Shown (fun r s' => r = 0 →
      (cfg.unshareNet = true → ∃ text line, s' (resolvPath root) = some text ∧
        line ∈ lines 10 (cstring text) ∧ TakenForReal line) ∧
      (cfg.unshareNet = false → resolvPath root ≠ hostResolv →
        (∃ text, text ≠ [] ∧ s (resolvPath root) = some text ∧
          s' (resolvPath root) = some text) ∨
        s' (resolvPath root) = s hostResolv)) s := by
  have hreal {text : CStr} (h : hasRealNs text = true) :
      ∃ line ∈ lines 10 (cstring text), TakenForReal line := by
    have hone := of_decide_eq_true h
    rw [hasRealNsInContent_eq] at hone
    by_contra hno
    rw [if_neg hno] at hone
    cases hone
  refine Wp.bind _ (Wp.mono (fun r s' hend => ?_) _ (checkOrCreateResolv_reaches s rfl))
  obtain ⟨hstays, hready⟩ := hend
  split
  · exact fun h => absurd h (by decide)
  · rename_i hneg
    split
    · rename_i hzero
      obtain ⟨rfl, text, htext, hne, hnet⟩ := hstays hzero
      refine fun _ => ⟨fun hyes => ?_, fun _ _ => .inl ⟨text, hne, htext, htext⟩⟩
      obtain ⟨line, hline, htaken⟩ := hreal (hnet hyes)
      exact ⟨text, line, htext, hline, htaken⟩
    · rename_i hzero
      have hpos : 0 < r := by omega
      refine Wp.mono (fun r' t hreplaced hr => ?_) _ (doResolvReplace_reaches s' (hready hpos))
      obtain ⟨hnet, hshared⟩ := hreplaced hr
      refine ⟨fun hyes => ?_, fun hno hne => .inr (hshared hno hne)⟩
      obtain ⟨text, htext, htrue⟩ := hnet hyes
      obtain ⟨line, hline, htaken⟩ := hreal htrue
      exact ⟨text, line, htext, hline, htaken⟩

end Cage.Sandbox.MountAll
