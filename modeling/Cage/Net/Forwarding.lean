import Cage.Util.MemPath
import Mathlib.Logic.Function.Basic

/-!
IPv6 forwarding: `net_enable_ip6_forward` of `src/net/net.c`, with `write_str`
and the loops over the interfaces under `/proc/sys/net/ipv6/conf`. Each file
there holds one value. The host decides which of the calls succeed, call by call.
-/

namespace Cage.Net

open Util

def confDir : CStr := lit "/proc/sys/net/ipv6/conf"

/-- The file of a setting of an interface. -/
def confPath (name setting : CStr) : CStr := confDir ++ lit "/" ++ name ++ lit "/" ++ setting

def acceptRa (name : CStr) : CStr := confPath name (lit "accept_ra")

def allForwarding : CStr := confPath (lit "all") (lit "forwarding")

def allForce : CStr := confPath (lit "all") (lit "force_forwarding")

/-- How the calls come out. A read or write moves at most so many bytes, and
none when it fails; `readdir` returns the first `listed` entries. -/
structure Sysctls where
  opendir : Bool
  entries : List CStr
  listed : Nat
  openRead : CStr → Bool
  read : CStr → Nat
  openWrite : CStr → Bool
  write : CStr → Nat
  close : CStr → Bool

def Sysctls.listing (host : Sysctls) : List CStr := host.entries.take host.listed

/-- A value that a file has taken, and the values just before. -/
structure Write where
  path : CStr
  text : CStr
  before : CStr → Option CStr

/-- The values of the files, and the writes so far. -/
structure Conf where
  value : CStr → Option CStr
  writes : List Write

abbrev ConfM (α : Type) := StateM Conf α

def writeStr (host : Sysctls) (path s : CStr) : ConfM Int := fun t =>
  if (t.value path).isSome ∧ host.openWrite path then
    let r := min (host.write path) s.length
    let taken := (s.take r).takeWhile (· ≠ 10)
    let t' := if 0 < r then
        { value := Function.update t.value path (some taken)
          writes := t.writes ++ [{ path := path, text := taken, before := t.value }] }
      else t
    (if r = s.length ∧ host.close path then 0 else -1, t')
  else (-1, t)

def writeOne (host : Sysctls) (path : CStr) : ConfM Int := writeStr host path (lit "1\n")

/-- What `read` puts into `val`, from a file with a value and a newline. -/
def readVal (host : Sysctls) (path value : CStr) : CStr :=
  ((value ++ [10]).take 3).take (host.read path)

def raiseAcceptRa (host : Sysctls) (name : CStr) : ConfM Bool := fun t =>
  if ¬fits (acceptRa name) 64 then (true, t)
  else
    match t.value (acceptRa name) with
    | none => (true, t)
    | some v =>
        if ¬host.openRead (acceptRa name) then (true, t)
        else if readVal host (acceptRa name) v = [] then (true, t)
        else if (readVal host (acceptRa name) v).head? ≠ some 49 then (true, t)
        else
          let r := writeStr host (acceptRa name) (lit "2\n") t
          (r.1 = 0, r.2)

def skipConfEntry (name : CStr) : Bool :=
  name.head? == some 46 || name == lit "all" || name == lit "default"

/-- The loop of `raise_all_accept_ra` over what is left of the listing. -/
def raiseAllAcceptRa (host : Sysctls) : List CStr → ConfM Bool
  | [] => pure true
  | e :: es =>
      if skipConfEntry e then raiseAllAcceptRa host es
      else do
        let ok ← raiseAcceptRa host e
        if ok then raiseAllAcceptRa host es else pure false

def legacyIp6Forward (host : Sysctls) : ConfM Unit := do
  if ¬host.opendir then pure ()
  else do
    let ok ← raiseAllAcceptRa host host.listing
    if ¬ok then pure ()
    else do
      let _ ← writeStr host (acceptRa (lit "default")) (lit "2\n")
      let _ ← writeOne host allForwarding
      pure ()

def forceForwardExisting (host : Sysctls) : List CStr → ConfM Unit
  | [] => pure ()
  | e :: es =>
      if skipConfEntry e ∨ ¬fits (confPath e (lit "force_forwarding")) 64 then
        forceForwardExisting host es
      else do
        let _ ← writeStr host (confPath e (lit "force_forwarding")) (lit "1\n")
        forceForwardExisting host es

/-- `net_enable_ip6_forward` -/
def netEnableIp6Forward (host : Sysctls) : ConfM Int := do
  let r ← writeStr host allForce (lit "1\n")
  if r = 0 then do
    let _ ← writeStr host (confPath (lit "default") (lit "force_forwarding")) (lit "1\n")
    if host.opendir then forceForwardExisting host host.listing
    pure 0
  else do
    legacyIp6Forward host
    pure 0

/-- A write of a digit and a newline that the caller sees succeed. -/
def TakesWrite (host : Sysctls) (value : CStr → Option CStr) (path : CStr) : Prop :=
  (value path).isSome = true ∧ host.openWrite path = true ∧ 2 ≤ host.write path ∧
    host.close path = true

/-- One that the file takes. -/
def Takes (host : Sysctls) (value : CStr → Option CStr) (path : CStr) : Prop :=
  (value path).isSome = true ∧ host.openWrite path = true ∧ 0 < host.write path

instance (host : Sysctls) (value : CStr → Option CStr) (path : CStr) :
    Decidable (TakesWrite host value path) := by
  unfold TakesWrite
  infer_instance

instance (host : Sysctls) (value : CStr → Option CStr) (path : CStr) :
    Decidable (Takes host value path) := by
  unfold Takes
  infer_instance

theorem TakesWrite.takes {host : Sysctls} {value : CStr → Option CStr} {path : CStr}
    (h : TakesWrite host value path) : Takes host value path :=
  ⟨h.1, h.2.1, Nat.lt_of_lt_of_le Nat.two_pos h.2.2.1⟩

def Conf.wrote (t : Conf) (path : CStr) (c : UInt8) : Conf where
  value := Function.update t.value path (some [c])
  writes := t.writes ++ [{ path := path, text := [c], before := t.value }]

theorem writeStr_eq (host : Sysctls) (path : CStr) {c : UInt8} (hc : c ≠ 10) (t : Conf) :
    writeStr host path [c, 10] t = (if TakesWrite host t.value path then 0 else -1,
      if Takes host t.value path then t.wrote path c else t) := by
  unfold writeStr
  by_cases hopen : (t.value path).isSome = true ∧ host.openWrite path = true
  · rw [if_pos hopen]
    have htaken (h : 0 < host.write path) :
        (([c, 10] : CStr).take (min (host.write path) 2)).takeWhile (· ≠ 10) = [c] := by
      obtain ⟨n, hn⟩ : ∃ n, min (host.write path) 2 = n + 1 := ⟨min (host.write path) 2 - 1, by omega⟩
      rw [hn, List.take_succ_cons, List.takeWhile_cons_of_pos (by simpa using hc)]
      cases n <;> rfl
    refine Prod.ext ?_ ?_
    · refine if_congr ?_ rfl rfl
      constructor
      · rintro ⟨hfull, hclose⟩
        have hlen : min (host.write path) 2 = 2 := hfull
        exact ⟨hopen.1, hopen.2, by omega, hclose⟩
      · rintro ⟨-, -, hfull, hclose⟩
        exact ⟨show min (host.write path) 2 = 2 by omega, hclose⟩
    · by_cases h : 0 < host.write path
      · have htakes : Takes host t.value path := ⟨hopen.1, hopen.2, h⟩
        rw [if_pos htakes]
        show (if 0 < min (host.write path) 2 then _ else t) = _
        rw [if_pos (by omega)]
        simp only [List.length_cons, List.length_nil, Nat.zero_add, htaken h]
        rfl
      · have hno : ¬Takes host t.value path := fun htakes => h htakes.2.2
        rw [if_neg hno]
        show (if 0 < min (host.write path) 2 then _ else t) = _
        rw [if_neg (by omega)]
  · rw [if_neg hopen, if_neg fun h => hopen ⟨h.1, h.2.1⟩, if_neg fun h => hopen ⟨h.1, h.2.1⟩]

/-- The interface is looked at, and its file read, and the value starts with a 1. -/
def ReadsOne (host : Sysctls) (value : CStr → Option CStr) (name : CStr) : Prop :=
  skipConfEntry name = false ∧ fits (acceptRa name) 64 = true ∧
    host.openRead (acceptRa name) = true ∧ 0 < host.read (acceptRa name) ∧
    ∃ v, value (acceptRa name) = some v ∧ v.head? = some 49

theorem head_readVal {host : Sysctls} {path v : CStr} (h : 0 < host.read path) :
    (readVal host path v).head? = some 49 ↔ v.head? = some 49 := by
  obtain ⟨n, hn⟩ : ∃ n, host.read path = n + 1 := ⟨host.read path - 1, by omega⟩
  unfold readVal
  rw [hn]
  cases v with
  | nil => exact iff_of_false (by simp) nofun
  | cons c v => rfl

/-- One interface: nothing to do, or its value is raised if the write succeeds. -/
theorem raiseAcceptRa_eq (host : Sysctls) {name : CStr} (hskip : skipConfEntry name = false)
    (t : Conf) :
    ReadsOne host t.value name ∧ raiseAcceptRa host name t =
        (decide (TakesWrite host t.value (acceptRa name)),
          if Takes host t.value (acceptRa name) then t.wrote (acceptRa name) 50 else t) ∨
      ¬ReadsOne host t.value name ∧ raiseAcceptRa host name t = (true, t) := by
  unfold raiseAcceptRa
  by_cases hfits : fits (acceptRa name) 64 = true
  · rw [if_neg (not_not_intro hfits)]
    cases hv : t.value (acceptRa name) with
    | none =>
      refine Or.inr ⟨?_, rfl⟩
      rintro ⟨-, -, -, -, v, hsome, -⟩
      rw [hv] at hsome
      cases hsome
    | some v =>
      dsimp only
      by_cases hopen : host.openRead (acceptRa name) = true
      · rw [if_neg (not_not_intro hopen)]
        by_cases hread : 0 < host.read (acceptRa name)
        · have hval := head_readVal (v := v) hread
          by_cases hone : v.head? = some 49
          · refine Or.inl ⟨⟨hskip, hfits, hopen, hread, v, hv, hone⟩, ?_⟩
            have hne : readVal host (acceptRa name) v ≠ [] := by
              intro hnil
              rw [hnil] at hval
              cases hval.mpr hone
            have hwrite := writeStr_eq host (acceptRa name) (show (50 : UInt8) ≠ 10 by decide) t
            rw [if_neg hne, if_neg (not_not_intro (hval.mpr hone))]
            show (decide ((writeStr host (acceptRa name) [50, 10] t).1 = 0),
              (writeStr host (acceptRa name) [50, 10] t).2) = _
            rw [hwrite]
            by_cases haccepts : TakesWrite host t.value (acceptRa name)
            · rw [if_pos haccepts, decide_eq_true haccepts]
              rfl
            · rw [if_neg haccepts, decide_eq_false haccepts]
              rfl
          · refine Or.inr ⟨?_, ?_⟩
            · rintro ⟨-, -, -, -, v', hsome, hhead⟩
              rw [hv] at hsome
              cases hsome
              exact hone hhead
            · rw [if_pos fun h => hone (hval.mp h)]
              split <;> rfl
        · have hnil : readVal host (acceptRa name) v = [] := by
            unfold readVal
            rw [Nat.eq_zero_of_not_pos hread, List.take_zero]
          rw [if_pos hnil]
          exact Or.inr ⟨fun h => hread h.2.2.2.1, rfl⟩
      · rw [if_pos hopen]
        exact Or.inr ⟨fun h => hopen h.2.2.1, rfl⟩
  · rw [if_pos hfits]
    exact Or.inr ⟨fun h => hfits h.2.1, rfl⟩

theorem confPath_inj {i j setting : CStr} (h : confPath i setting = confPath j setting) : i = j := by
  unfold confPath at h
  exact List.append_cancel_left (List.append_cancel_right (List.append_cancel_right h))

/-- Paths of different settings differ, whatever the interfaces. -/
theorem confPath_ne {i j s t : CStr} (h : s.getLast? ≠ t.getLast?) (hs : s ≠ []) (ht : t ≠ []) :
    confPath i s ≠ confPath j t := by
  intro heq
  have hlast := congrArg List.getLast? heq
  unfold confPath at hlast
  rw [List.getLast?_append_of_ne_nil _ hs, List.getLast?_append_of_ne_nil _ ht] at hlast
  exact h hlast

theorem acceptRa_ne_forwarding (i : CStr) : acceptRa i ≠ allForwarding :=
  confPath_ne (by decide +kernel) (by decide) (by decide)

theorem wrote_value_of_ne {t : Conf} {p q : CStr} (h : q ≠ p) (c : UInt8) :
    (t.wrote p c).value q = t.value q :=
  Function.update_of_ne h _ _

/-- What a loop over some interfaces leaves, when it goes through. -/
structure Raised (host : Sysctls) (names : List CStr) (t t' : Conf) : Prop where
  raised : ∀ i ∈ names, ReadsOne host t.value i → t'.value (acceptRa i) = some [50]
  kept : ∀ i, ¬(i ∈ names ∧ ReadsOne host t.value i) → t'.value (acceptRa i) = t.value (acceptRa i)
  others : ∀ p, (∀ i, p ≠ acceptRa i) → t'.value p = t.value p

/-- Only files of the setting are written. -/
def OnlyRa (t t' : Conf) : Prop := ∀ w ∈ t'.writes, w ∈ t.writes ∨ ∃ i, w.path = acceptRa i

theorem onlyRa_wrote (t : Conf) (i : CStr) (c : UInt8) : OnlyRa t (t.wrote (acceptRa i) c) := by
  intro w hw
  rcases List.mem_append.mp hw with hw | hw
  · exact Or.inl hw
  · exact Or.inr ⟨i, by rw [List.mem_singleton.mp hw]⟩

theorem OnlyRa.trans {t t' t'' : Conf} (h : OnlyRa t t') (h' : OnlyRa t' t'') : OnlyRa t t'' := by
  intro w hw
  rcases h' w hw with hw | hw
  · exact h w hw
  · exact Or.inr hw

theorem readsOne_wrote {host : Sysctls} {t : Conf} {e i : CStr} :
    ReadsOne host (t.wrote (acceptRa e) 50).value i ↔ ReadsOne host t.value i ∧ i ≠ e := by
  by_cases hie : i = e
  · subst hie
    refine iff_of_false ?_ fun h => h.2 rfl
    rintro ⟨-, -, -, -, v, hv, hone⟩
    have hself : (t.wrote (acceptRa i) 50).value (acceptRa i) = some [50] := Function.update_self ..
    rw [hself] at hv
    cases hv
    cases hone
  · have hne : acceptRa i ≠ acceptRa e := fun h => hie (confPath_inj h)
    unfold ReadsOne
    rw [wrote_value_of_ne hne]
    exact ⟨fun h => ⟨h, hie⟩, fun h => h.1⟩

theorem accepts_wrote {host : Sysctls} {t : Conf} {p q : CStr} {c : UInt8}
    (hp : (t.value p).isSome = true) :
    TakesWrite host (t.wrote p c).value q ↔ TakesWrite host t.value q := by
  unfold TakesWrite
  by_cases hpq : q = p
  · subst hpq
    have hself : (t.wrote q c).value q = some [c] := Function.update_self ..
    rw [hself, hp]
    rfl
  · rw [wrote_value_of_ne hpq]

theorem raiseAllAcceptRa_skip {host : Sysctls} {e : CStr} (hskip : skipConfEntry e = true)
    (es : List CStr) (t : Conf) :
    raiseAllAcceptRa host (e :: es) t = raiseAllAcceptRa host es t := by
  rw [raiseAllAcceptRa, if_pos hskip]

theorem raiseAllAcceptRa_cons {host : Sysctls} {e : CStr} (hskip : ¬skipConfEntry e = true)
    (es : List CStr) (t : Conf) :
    raiseAllAcceptRa host (e :: es) t =
      if (raiseAcceptRa host e t).1 then raiseAllAcceptRa host es (raiseAcceptRa host e t).2
      else (false, (raiseAcceptRa host e t).2) := by
  rw [raiseAllAcceptRa, if_neg hskip]
  show (if (raiseAcceptRa host e t).1 then raiseAllAcceptRa host es else pure false)
    (raiseAcceptRa host e t).2 = _
  split <;> rfl

theorem Raised.pass {host : Sysctls} {e : CStr} {es : List CStr} {t t' : Conf}
    (h : Raised host es t t') (hno : ¬ReadsOne host t.value e) : Raised host (e :: es) t t' where
  raised i hi hone := by
    rcases List.mem_cons.mp hi with rfl | hi
    · exact absurd hone hno
    · exact h.raised i hi hone
  kept i hi := h.kept i fun hmem => hi ⟨List.mem_cons_of_mem e hmem.1, hmem.2⟩
  others := h.others

theorem Raised.raise {host : Sysctls} {e : CStr} {es : List CStr} {t t' : Conf}
    (h : Raised host es (t.wrote (acceptRa e) 50) t') (hone : ReadsOne host t.value e) :
    Raised host (e :: es) t t' where
  raised i hi hi' := by
    by_cases hie : i = e
    · subst hie
      rw [h.kept i fun hmem => (readsOne_wrote.mp hmem.2).2 rfl]
      exact Function.update_self ..
    · rcases List.mem_cons.mp hi with rfl | hi
      · exact absurd rfl hie
      · exact h.raised i hi (readsOne_wrote.mpr ⟨hi', hie⟩)
  kept i hi := by
    have hie : i ≠ e := fun heq => hi ⟨heq ▸ List.mem_cons_self, heq ▸ hone⟩
    rw [h.kept i fun hmem => hi ⟨List.mem_cons_of_mem e hmem.1, (readsOne_wrote.mp hmem.2).1⟩]
    exact wrote_value_of_ne (fun heq => hie (confPath_inj heq)) 50
  others p hp := by
    rw [h.others p hp]
    exact wrote_value_of_ne (hp e) 50

/-- The loop goes through unless it cannot raise an interface that reads a 1. -/
theorem raiseAllAcceptRa_spec (host : Sysctls) (names : List CStr) (t : Conf) :
    ((raiseAllAcceptRa host names t).1 = true ↔
        ∀ i ∈ names, ReadsOne host t.value i → TakesWrite host t.value (acceptRa i)) ∧
      ((raiseAllAcceptRa host names t).1 = true →
        Raised host names t (raiseAllAcceptRa host names t).2) ∧
      OnlyRa t (raiseAllAcceptRa host names t).2 := by
  induction names generalizing t with
  | nil =>
    refine ⟨iff_of_true rfl fun i hi => absurd hi List.not_mem_nil, fun _ => ⟨?_, ?_, ?_⟩, ?_⟩
    · exact fun i hi => absurd hi List.not_mem_nil
    · exact fun _ _ => rfl
    · exact fun _ _ => rfl
    · exact fun w hw => Or.inl hw
  | cons e es ih =>
    have hpass (hno : ¬ReadsOne host t.value e)
        (hrun : raiseAllAcceptRa host (e :: es) t = raiseAllAcceptRa host es t) :
        ((raiseAllAcceptRa host (e :: es) t).1 = true ↔
            ∀ i ∈ e :: es, ReadsOne host t.value i → TakesWrite host t.value (acceptRa i)) ∧
          ((raiseAllAcceptRa host (e :: es) t).1 = true →
            Raised host (e :: es) t (raiseAllAcceptRa host (e :: es) t).2) ∧
          OnlyRa t (raiseAllAcceptRa host (e :: es) t).2 := by
      obtain ⟨hok, hraised, honly⟩ := ih t
      rw [hrun, List.forall_mem_cons]
      exact ⟨hok.trans ⟨fun h => ⟨fun hone => absurd hone hno, h⟩, fun h => h.2⟩,
        fun h => (hraised h).pass hno, honly⟩
    by_cases hskip : skipConfEntry e = true
    · refine hpass (fun h => ?_) (raiseAllAcceptRa_skip hskip es t)
      have hseen := h.1
      rw [hskip] at hseen
      cases hseen
    · have hcons := @raiseAllAcceptRa_cons host e hskip es t
      rcases raiseAcceptRa_eq host (Bool.not_eq_true _ ▸ hskip) t with ⟨hone, hrun⟩ | ⟨hno, hrun⟩
      · rw [hrun] at hcons
        by_cases haccepts : TakesWrite host t.value (acceptRa e)
        · rw [decide_eq_true haccepts, if_pos rfl, if_pos haccepts.takes] at hcons
          obtain ⟨hok, hraised, honly⟩ := ih (t.wrote (acceptRa e) 50)
          rw [hcons, hok, List.forall_mem_cons]
          refine ⟨⟨fun h => ⟨fun _ => haccepts, fun i hi hi' => ?_⟩, fun h i hi hi' => ?_⟩,
            fun h => (hraised (hok.mpr h)).raise hone, (onlyRa_wrote t e 50).trans honly⟩
          · by_cases hie : i = e
            · exact hie ▸ haccepts
            · exact (accepts_wrote haccepts.1).mp (h i hi (readsOne_wrote.mpr ⟨hi', hie⟩))
          · exact (accepts_wrote haccepts.1).mpr (h.2 i hi (readsOne_wrote.mp hi').1)
        · rw [decide_eq_false haccepts, if_neg (by simp)] at hcons
          rw [hcons]
          refine ⟨iff_of_false (by simp) fun h => haccepts (h e List.mem_cons_self hone), nofun, ?_⟩
          dsimp only
          split
          · exact onlyRa_wrote t e 50
          · exact fun w hw => Or.inl hw
      · rw [hrun, if_pos rfl] at hcons
        exact hpass hno hcons

/-- Legacy forwarding is turned on: every raise it tries succeeds, and the file
takes the write. -/
def Forwards (host : Sysctls) (value : CStr → Option CStr) : Prop :=
  host.opendir = true ∧
    (∀ i ∈ host.listing, ReadsOne host value i → TakesWrite host value (acceptRa i)) ∧
    Takes host value allForwarding

def NoForwarding (t : Conf) : Prop := ∀ w ∈ t.writes, w.path ≠ allForwarding

theorem OnlyRa.noForwarding {t t' : Conf} (h : OnlyRa t t') (hno : NoForwarding t) :
    NoForwarding t' := by
  intro w hw
  rcases h w hw with hw | ⟨i, hi⟩
  · exact hno w hw
  · rw [hi]
    exact acceptRa_ne_forwarding i

/-- A write whose result is not looked at. -/
def Conf.tried (host : Sysctls) (t : Conf) (p : CStr) (c : UInt8) : Conf :=
  if Takes host t.value p then t.wrote p c else t

theorem tried_value_of_ne {host : Sysctls} {t : Conf} {p q : CStr} (h : q ≠ p) (c : UInt8) :
    (t.tried host p c).value q = t.value q := by
  unfold Conf.tried
  split
  · exact wrote_value_of_ne h c
  · rfl

theorem writeStr_snd (host : Sysctls) (path : CStr) {c : UInt8} (hc : c ≠ 10) (t : Conf) :
    (writeStr host path [c, 10] t).2 = t.tried host path c := by
  rw [writeStr_eq host path hc]
  rfl

theorem mem_tried {host : Sysctls} {t : Conf} {p : CStr} {c : UInt8} {w : Write}
    (h : w ∈ (t.tried host p c).writes) :
    w ∈ t.writes ∨ Takes host t.value p ∧ w = { path := p, text := [c], before := t.value } := by
  unfold Conf.tried at h
  split at h
  · rename_i htakes
    rcases List.mem_append.mp h with h | h
    · exact Or.inl h
    · exact Or.inr ⟨htakes, List.mem_singleton.mp h⟩
  · exact Or.inl h

theorem legacyIp6Forward_eq (host : Sysctls) (t : Conf) :
    (legacyIp6Forward host t).2 =
      if host.opendir = true ∧ (raiseAllAcceptRa host host.listing t).1 = true then
        ((raiseAllAcceptRa host host.listing t).2.tried host (acceptRa (lit "default")) 50).tried host
          allForwarding 49
      else if host.opendir = true then (raiseAllAcceptRa host host.listing t).2 else t := by
  unfold legacyIp6Forward
  by_cases hdir : host.opendir = true
  · rw [if_neg (not_not_intro hdir), if_pos hdir]
    by_cases hok : (raiseAllAcceptRa host host.listing t).1 = true
    · rw [if_pos ⟨hdir, hok⟩, ← writeStr_snd host _ (by decide), ← writeStr_snd host _ (by decide)]
      show ((if ¬(raiseAllAcceptRa host host.listing t).1 = true then pure () else _ : ConfM Unit)
        (raiseAllAcceptRa host host.listing t).2).2 = _
      rw [if_neg (not_not_intro hok)]
      rfl
    · rw [if_neg fun h => hok h.2]
      show ((if ¬(raiseAllAcceptRa host host.listing t).1 = true then pure () else _ : ConfM Unit)
        (raiseAllAcceptRa host host.listing t).2).2 = _
      rw [if_pos hok]
      rfl
  · rw [if_pos hdir, if_neg fun h => hdir h.1, if_neg hdir]
    rfl

/-- What a write to `all/forwarding` finds: every interface that read a 1 has
been raised, and the others are as they were. -/
def FindsRaised (host : Sysctls) (value : CStr → Option CStr) (w : Write) : Prop :=
  ∀ i, i ≠ lit "default" →
    (i ∈ host.listing ∧ ReadsOne host value i → w.before (acceptRa i) = some [50]) ∧
    (¬(i ∈ host.listing ∧ ReadsOne host value i) → w.before (acceptRa i) = value (acceptRa i))

theorem legacyIp6Forward_spec (host : Sysctls) {t : Conf} (hno : NoForwarding t) :
    (Forwards host t.value → ∃ w ∈ (legacyIp6Forward host t).2.writes, w.path = allForwarding) ∧
      (¬Forwards host t.value → NoForwarding (legacyIp6Forward host t).2) ∧
      ∀ w ∈ (legacyIp6Forward host t).2.writes, w.path = allForwarding →
        FindsRaised host t.value w := by
  obtain ⟨hok, hraised, honly⟩ := raiseAllAcceptRa_spec host host.listing t
  have hearlier := honly.noForwarding hno
  obtain ⟨u, hu⟩ : ∃ u, u = (raiseAllAcceptRa host host.listing t).2 := ⟨_, rfl⟩
  rw [legacyIp6Forward_eq]
  rw [← hu] at hraised hearlier ⊢
  by_cases hgo : host.opendir = true ∧ (raiseAllAcceptRa host host.listing t).1 = true
  · rw [if_pos hgo]
    have hr := hraised hgo.2
    obtain ⟨u', hu'⟩ : ∃ u', u' = u.tried host (acceptRa (lit "default")) 50 := ⟨_, rfl⟩
    rw [← hu']
    have hsame : u'.value allForwarding = t.value allForwarding := by
      rw [hu', tried_value_of_ne (acceptRa_ne_forwarding _).symm,
        hr.others allForwarding fun i => (acceptRa_ne_forwarding i).symm]
    have htakes : Takes host u'.value allForwarding ↔ Takes host t.value allForwarding := by
      unfold Takes
      rw [hsame]
    have hbefore : NoForwarding u' := by
      intro w hw
      rw [hu'] at hw
      rcases mem_tried hw with hw | ⟨-, rfl⟩
      · exact hearlier w hw
      · exact acceptRa_ne_forwarding _
    have hforwards : Forwards host t.value ↔ Takes host t.value allForwarding :=
      ⟨fun h => h.2.2, fun h => ⟨hgo.1, hok.mp hgo.2, h⟩⟩
    refine ⟨fun h => ?_, fun h w hw => ?_, fun w hw hpath => ?_⟩
    · refine ⟨{ path := allForwarding, text := [49], before := u'.value }, ?_, rfl⟩
      unfold Conf.tried
      rw [if_pos (htakes.mpr (hforwards.mp h))]
      exact List.mem_append_right _ (List.mem_singleton.mpr rfl)
    · rcases mem_tried hw with hw | ⟨hyes, -⟩
      · exact hbefore w hw
      · exact absurd (hforwards.mpr (htakes.mp hyes)) h
    · rcases mem_tried hw with hw | ⟨-, rfl⟩
      · exact absurd hpath (hbefore w hw)
      · intro i hi
        have hvalue : u'.value (acceptRa i) = u.value (acceptRa i) := by
          rw [hu']
          exact tried_value_of_ne (fun heq => hi (confPath_inj heq)) 50
        dsimp only
        rw [hvalue]
        exact ⟨fun h => hr.raised i h.1 h.2, hr.kept i⟩
  · rw [if_neg hgo]
    have hnone : NoForwarding (if host.opendir = true then u else t) := by
      split
      · exact hearlier
      · exact hno
    refine ⟨fun h => absurd ⟨h.1, hok.mpr h.2.1⟩ hgo, fun _ => hnone, fun w hw hpath => ?_⟩
    exact absurd hpath (hnone w hw)

theorem confForce_ne_forwarding (i : CStr) :
    confPath i (lit "force_forwarding") ≠ allForwarding := by
  intro h
  have hlen := congrArg List.length h
  have hforce : (lit "force_forwarding").length = 16 := by decide +kernel
  have hforward : (lit "forwarding").length = 10 := by decide +kernel
  have hall : (lit "all").length = 3 := by decide +kernel
  unfold allForwarding confPath at hlen
  simp only [List.length_append, hforce, hforward, hall] at hlen
  omega

theorem forceForwardExisting_noForwarding (host : Sysctls) (names : List CStr) {t : Conf}
    (hno : NoForwarding t) : NoForwarding (forceForwardExisting host names t).2 := by
  induction names generalizing t with
  | nil => exact hno
  | cons e es ih =>
    rw [forceForwardExisting]
    split
    · exact ih hno
    · show NoForwarding (forceForwardExisting host es
        (writeStr host (confPath e (lit "force_forwarding")) [49, 10] t).2).2
      rw [writeStr_snd host _ (by decide)]
      refine ih fun w hw => ?_
      rcases mem_tried hw with hw | ⟨-, rfl⟩
      · exact hno w hw
      · exact confForce_ne_forwarding e

/-- A name under `conf` that is neither a setting for all nor a place. -/
def Interface (host : Sysctls) (i : CStr) : Prop :=
  i ∈ host.entries ∧ i ≠ lit "." ∧ i ≠ lit ".." ∧ i ≠ lit "all" ∧ i ≠ lit "default"

/-- Whenever `all/forwarding` is written, no interface has an `accept_ra` of 1;
and it is not written where `all/force_forwarding` accepts. -/
def KeepsRoutes (host : Sysctls) (value : CStr → Option CStr) : Prop :=
  let t := (netEnableIp6Forward host { value := value, writes := [] }).2
  (∀ w ∈ t.writes, w.path = allForwarding → ∀ i, Interface host i →
    w.before (acceptRa i) ≠ some (lit "1")) ∧
    (TakesWrite host value allForce → NoForwarding t)

/-- Every interface with a 1 is looked at and read, or forwarding is not reached. -/
def AllRead (host : Sysctls) (value : CStr → Option CStr) : Prop :=
  (∀ i, Interface host i → value (acceptRa i) = some (lit "1") →
    i ∈ host.listing ∧ ReadsOne host value i) ∨
    TakesWrite host value allForce ∨ ¬Forwards host value

theorem netEnableIp6Forward_legacy {host : Sysctls} {t : Conf}
    (hforce : ¬TakesWrite host t.value allForce) :
    (netEnableIp6Forward host t).2 = (legacyIp6Forward host (t.tried host allForce 49)).2 := by
  have hwrite := writeStr_eq host allForce (show (49 : UInt8) ≠ 10 by decide) t
  unfold netEnableIp6Forward
  show ((if (writeStr host allForce [49, 10] t).1 = 0 then _ else _ : ConfM Int)
    (writeStr host allForce [49, 10] t).2).2 = _
  rw [hwrite, if_neg hforce, if_neg (show ¬(-1 : Int) = 0 by decide)]
  rfl

theorem netEnableIp6Forward_force {host : Sysctls} {t : Conf} (hno : NoForwarding t)
    (hforce : TakesWrite host t.value allForce) : NoForwarding (netEnableIp6Forward host t).2 := by
  have hwrite := writeStr_eq host allForce (show (49 : UInt8) ≠ 10 by decide) t
  have htried {u : Conf} (hu : NoForwarding u) (i : CStr) :
      NoForwarding (u.tried host (confPath i (lit "force_forwarding")) 49) := by
    intro w hw
    rcases mem_tried hw with hw | ⟨-, rfl⟩
    · exact hu w hw
    · exact confForce_ne_forwarding i
  have hdefault := htried (htried hno (lit "all")) (lit "default")
  unfold netEnableIp6Forward
  show NoForwarding ((if (writeStr host allForce [49, 10] t).1 = 0 then _ else _ : ConfM Int)
    (writeStr host allForce [49, 10] t).2).2
  rw [hwrite, if_pos hforce, if_pos rfl]
  rw [← writeStr_snd host _ (by decide)] at hdefault
  by_cases hdir : host.opendir = true
  · rw [if_pos hdir]
    exact forceForwardExisting_noForwarding host _ hdefault
  · rw [if_neg hdir]
    exact hdefault

theorem acceptRa_ne_force (i : CStr) : acceptRa i ≠ allForce :=
  confPath_ne (by decide +kernel) (by decide) (by decide)

/-- The attempt on `all/force_forwarding` changes nothing that the rest looks at. -/
theorem readsOne_tried {host : Sysctls} {t : Conf} {i : CStr} :
    ReadsOne host (t.tried host allForce 49).value i ↔ ReadsOne host t.value i := by
  unfold ReadsOne
  rw [tried_value_of_ne (acceptRa_ne_force i)]

theorem forwards_tried {host : Sysctls} {t : Conf} :
    Forwards host (t.tried host allForce 49).value ↔ Forwards host t.value := by
  have hne : allForwarding ≠ allForce := by decide +kernel
  unfold Forwards Takes TakesWrite
  simp only [readsOne_tried, tried_value_of_ne (acceptRa_ne_force _), tried_value_of_ne hne]

/-- Enabling IPv6 forwarding keeps the routes of every interface exactly where
each interface that has a 1 is looked at and read, or forwarding stays off. -/
theorem netEnableIp6Forward_iff (host : Sysctls) (value : CStr → Option CStr) :
    KeepsRoutes host value ↔ AllRead host value := by
  obtain ⟨t, ht⟩ : ∃ t : Conf, t = { value := value, writes := [] } := ⟨_, rfl⟩
  have hvalue : t.value = value := by rw [ht]
  have hno : NoForwarding t := by
    rw [ht]
    exact fun w hw => absurd hw List.not_mem_nil
  unfold KeepsRoutes
  rw [← ht, ← hvalue]
  by_cases hforce : TakesWrite host t.value allForce
  · have hnone := netEnableIp6Forward_force hno hforce
    exact iff_of_true ⟨fun w hw hpath => absurd hpath (hnone w hw), fun _ => hnone⟩
      (Or.inr (Or.inl hforce))
  · have hstart : NoForwarding (t.tried host allForce 49) := by
      intro w hw
      rcases mem_tried hw with hw | ⟨-, rfl⟩
      · exact hno w hw
      · exact confForce_ne_forwarding (lit "all")
    obtain ⟨hdone, hnone, hfinds⟩ := legacyIp6Forward_spec host hstart
    rw [forwards_tried] at hdone hnone
    rw [netEnableIp6Forward_legacy hforce]
    by_cases hforwards : Forwards host t.value
    · have hread : AllRead host t.value ↔ ∀ i, Interface host i →
          t.value (acceptRa i) = some (lit "1") → i ∈ host.listing ∧ ReadsOne host t.value i := by
        refine ⟨fun h => ?_, Or.inl⟩
        rcases h with h | h | h
        · exact h
        · exact absurd h hforce
        · exact absurd hforwards h
      rw [hread]
      constructor
      · rintro ⟨hkeeps, -⟩ i hi hone
        obtain ⟨w, hw, hpath⟩ := hdone hforwards
        by_contra hmissed
        refine hkeeps w hw hpath i hi ?_
        rw [((hfinds w hw hpath) i hi.2.2.2.2).2 (by rwa [readsOne_tried]),
          tried_value_of_ne (acceptRa_ne_force i), hone]
      · intro hall
        refine ⟨fun w hw hpath i hi hone => ?_, fun h => absurd h hforce⟩
        have hfound := (hfinds w hw hpath) i hi.2.2.2.2
        rw [readsOne_tried, tried_value_of_ne (acceptRa_ne_force i)] at hfound
        by_cases hseen : i ∈ host.listing ∧ ReadsOne host t.value i
        · rw [hfound.1 hseen] at hone
          exact absurd hone (by decide)
        · rw [hfound.2 hseen] at hone
          exact hseen (hall i hi hone)
    · have hoff := hnone hforwards
      exact iff_of_true ⟨fun w hw hpath => absurd hpath (hoff w hw), fun h => absurd h hforce⟩
        (Or.inr (Or.inr hforwards))

/-- An interface whose `accept_ra` cannot be opened for reading. -/
def deafHost : Sysctls where
  opendir := true
  entries := [lit ".", lit "..", lit "all", lit "default", lit "eth0"]
  listed := 5
  openRead p := p ≠ acceptRa (lit "eth0")
  read _ := 3
  openWrite _ := true
  write _ := 2
  close _ := true

def deafValue (p : CStr) : Option CStr :=
  if p = acceptRa (lit "eth0") then some (lit "1")
  else if p = allForwarding then some (lit "0")
  else none

/-- It counts as raised, and forwarding is turned on over its 1. -/
theorem netEnableIp6Forward_deaf : ¬KeepsRoutes deafHost deafValue := by
  rintro ⟨hkeeps, -⟩
  have hwrite : (netEnableIp6Forward deafHost { value := deafValue, writes := [] }).2.writes.any
      (fun w => w.path = allForwarding ∧ w.before (acceptRa (lit "eth0")) = some (lit "1")) =
        true := by
    decide +kernel
  obtain ⟨w, hw, hboth⟩ := List.any_eq_true.mp hwrite
  obtain ⟨hpath, hone⟩ := of_decide_eq_true hboth
  exact hkeeps w hw hpath (lit "eth0") ⟨by decide, by decide, by decide, by decide, by decide⟩ hone

end Cage.Net
