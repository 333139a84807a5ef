import Cage.Core.Host

/-!
Whom `killpid`, `detect_existing` and `spawn_existing` reach. A pidfile never
holds anything but the pid of the init child of the process that has made it, so
what is read from it is the pid of an init child; whether it still is that child
is for the process table to say.
-/

namespace Cage.Core

open Lib.Program Lib.Runs Util

variable {P : Type} (path : P → CStr)

/-- What the host never loses. The pid of an init child is its own until it is reaped. -/
structure HostInv (s : Host P) : Prop where
  entry : ∀ a f, s.path a = some f → ∃ q, s.maker f = some (q, a)
  text : ∀ f q a, s.maker f = some (q, a) →
    s.text f = [] ∨ ∃ n, s.child q = some n ∧ s.text f = intStr n
  fresh : ∀ f, s.files ≤ f → s.maker f = none ∧ s.text f = []
  child : ∀ q n, s.child q = some n →
    IsPid n ∧ (s.reaped q = true ∨ ∃ z, s.holder n = some ⟨.init q, z⟩)
  uses : ReachesPid path s

/-- What a step of the processes in `M` leaves to the others. -/
structure HostStep (M : P → Prop) (s t : Host P) : Prop where
  maker : ∀ f m, s.maker f = some m → t.maker f = some m
  text : ∀ f, s.text f ≠ [] → t.text f = s.text f
  child : ∀ q n, s.child q = some n → t.child q = some n
  others : ∀ q, ¬ M q → t.child q = s.child q ∧
    ∀ f a, s.maker f = some (q, a) → t.text f = s.text f

section Steps

variable {path : P → CStr} {s t u : Host P}

/-- A step that touches neither the files nor who has a child. -/
theorem HostStep.same {M : P → Prop} (hmaker : t.maker = s.maker) (htext : t.text = s.text)
    (hchild : t.child = s.child) : HostStep M s t where
  maker f m h := by rw [hmaker, h]
  text f _ := by rw [htext]
  child q n h := by rw [hchild, h]
  others q _ := ⟨by rw [hchild], fun f a _ => by rw [htext]⟩

theorem HostStep.trans {M : P → Prop} (h : HostStep M s t) (h' : HostStep M t u) :
    HostStep M s u where
  maker f m hf := h'.maker f m (h.maker f m hf)
  text f hf := by
    have ht := h.text f hf
    rw [h'.text f (by rwa [ht]), ht]
  child q n hq := h'.child q n (h.child q n hq)
  others q hq := by
    refine ⟨(h'.others q hq).1.trans (h.others q hq).1, ?_⟩
    intro f a hf
    rw [(h'.others q hq).2 f a (h.maker f _ hf), (h.others q hq).2 f a hf]

theorem Recorded.step {M : P → Prop} (h : HostStep M s t) {a : CStr} {q : P} {n : Nat}
    (hrec : Recorded s a q n) : Recorded t a q n := by
  obtain ⟨hchild, f, hmaker, htext⟩ := hrec
  refine ⟨h.child q n hchild, f, h.maker f _ hmaker, ?_⟩
  rw [h.text f (by rw [htext]; exact intStr_ne_nil n), htext]

/-- Processes come and go, and nothing else happens. -/
structure Moved (s t : Host P) : Prop where
  path : t.path = s.path
  files : t.files = s.files
  text : t.text = s.text
  maker : t.maker = s.maker
  child : t.child = s.child
  uses : t.uses = s.uses
  reaped : ∀ q, s.reaped q = true → t.reaped q = true
  holder : ∀ n q z, s.holder n = some ⟨.init q, z⟩ →
    t.reaped q = true ∨ ∃ z', t.holder n = some ⟨.init q, z'⟩

theorem Moved.refl (s : Host P) : Moved s s :=
  ⟨rfl, rfl, rfl, rfl, rfl, rfl, fun _ h => h, fun _ _ z h => Or.inr ⟨z, h⟩⟩

theorem Moved.trans (h : Moved s t) (h' : Moved t u) : Moved s u where
  path := h'.path.trans h.path
  files := h'.files.trans h.files
  text := h'.text.trans h.text
  maker := h'.maker.trans h.maker
  child := h'.child.trans h.child
  uses := h'.uses.trans h.uses
  reaped q hq := h'.reaped q (h.reaped q hq)
  holder n q z hn := by
    rcases h.holder n q z hn with hr | ⟨z', hz'⟩
    · exact Or.inl (h'.reaped q hr)
    · exact h'.holder n q z' hz'

theorem Moved.step (h : Moved s t) {M : P → Prop} : HostStep M s t :=
  HostStep.same h.maker h.text h.child

theorem Moved.inv (h : Moved s t) (hs : HostInv path s) : HostInv path t where
  entry a f hf := by
    rw [h.path] at hf
    rw [h.maker]
    exact hs.entry a f hf
  text f q a hf := by
    rw [h.maker] at hf
    rw [h.text, h.child]
    exact hs.text f q a hf
  fresh f hf := by
    rw [h.files] at hf
    rw [h.maker, h.text]
    exact hs.fresh f hf
  child q n hq := by
    rw [h.child] at hq
    obtain ⟨hpid, hheld⟩ := hs.child q n hq
    refine ⟨hpid, ?_⟩
    rcases hheld with hr | ⟨z, hz⟩
    · exact Or.inl (h.reaped q hr)
    · exact h.holder n q z hz
  uses u hu := by
    rw [h.uses] at hu
    obtain ⟨q, hrec, howner⟩ := hs.uses u hu
    exact ⟨q, hrec.step (M := fun _ => False) h.step, howner.imp id (h.reaped q)⟩

theorem setHolder_self {n : Nat} {e : Option (Entry P)} : (s.setHolder n e).holder n = e := by
  simp only [Host.setHolder, Function.update_self]

theorem setHolder_of_ne {m n : Nat} {e : Option (Entry P)} (h : m ≠ n) :
    (s.setHolder n e).holder m = s.holder m := by
  simp only [Host.setHolder, Function.update_of_ne h]

theorem moved_setHolder {n : Nat} {e : Option (Entry P)}
    (h : ∀ q z, s.holder n = some ⟨.init q, z⟩ → s.reaped q = true ∨ ∃ z', e = some ⟨.init q, z'⟩) :
    Moved s (s.setHolder n e) := by
  refine ⟨rfl, rfl, rfl, rfl, rfl, rfl, fun _ hq => hq, ?_⟩
  intro m q z hm
  by_cases hn : m = n
  · subst hn
    refine (h q z hm).imp id fun hz => ?_
    rwa [setHolder_self]
  · exact Or.inr ⟨z, by rwa [setHolder_of_ne hn]⟩

variable [DecidableEq P]

theorem moved_setReaped (o : Owner P) : Moved s (s.setReaped o) := by
  cases o with
  | other => exact Moved.refl s
  | init p =>
    refine ⟨rfl, rfl, rfl, rfl, rfl, rfl, ?_, fun _ _ z h => Or.inr ⟨z, h⟩⟩
    intro q hq
    dsimp only [Host.setReaped]
    rw [Function.update_apply]
    split
    · rfl
    · exact hq

theorem moved_reap (n : Nat) : Moved s (s.reap n) := by
  unfold Host.reap
  split
  · rename_i owner hn
    refine (moved_setReaped owner).trans (moved_setHolder ?_)
    intro q z hq
    cases owner with
    | other =>
      rw [Host.setReaped, hn] at hq
      cases hq
    | init p =>
      have hp : some (⟨.init p, true⟩ : Entry P) = some ⟨.init q, z⟩ := hn.symm.trans hq
      cases hp
      refine Or.inl ?_
      simp only [Host.setReaped, Function.update_self]
  · exact Moved.refl s

theorem moved_move (m : Move) : Moved s (s.move m) := by
  cases m with
  | starts n =>
    show Moved s (if _ then _ else s)
    split
    · rename_i h
      refine moved_setHolder fun q z hq => ?_
      rw [h.2] at hq
      cases hq
    · exact Moved.refl s
  | exits n =>
    unfold Host.move
    dsimp only
    split
    · rename_i e he
      refine moved_setHolder fun q z hq => ?_
      rw [he] at hq
      cases hq
      exact Or.inr ⟨true, rfl⟩
    · exact Moved.refl s
  | reaps n => exact moved_reap n

theorem moved_moves (ms : List Move) : Moved s (s.moves ms) := by
  unfold Host.moves
  induction ms generalizing s with
  | nil => exact Moved.refl s
  | cons m ms ih => exact (moved_move m).trans ih

end Steps

section Answers

variable {path : P → CStr} {s : Host P}

/-- What a process must know before a call: whose pid it names, and that the
file it writes and the child it forks are its first. -/
def HostOk (path : P → CStr) (p : P) (s : Host P) : ProcCall → Prop
  | .kill n _ | .readPidStat n | .chdirRoot n | .readPidEnviron n | .openNs n _ =>
      ∃ q, Recorded s (path p) q n
  | .dprintf fd n => (∃ a, s.maker fd = some (p, a)) ∧ s.text fd = [] ∧ s.child p = some n
  | .doSetup => s.child p = none
  | _ => True

/-- A step of `p` that keeps everything the host never loses. -/
def Kept (path : P → CStr) (p : P) (s t : Host P) : Prop :=
  HostInv path t ∧ HostStep (fun q => q = p) s t

theorem Moved.kept {p : P} {t : Host P} (h : Moved s t) (hs : HostInv path s) : Kept path p s t :=
  ⟨h.inv hs, h.step⟩

theorem kept_use {p : P} (hs : HostInv path s) {call : ProcCall} {n : Nat} {e : Entry P}
    (hn : s.holder n = some e) (hok : ∃ q, Recorded s (path p) q n) :
    Kept path p s (s.use p call n e.owner) := by
  refine ⟨⟨hs.entry, hs.text, hs.fresh, hs.child, ?_⟩, HostStep.same rfl rfl rfl⟩
  intro u hu
  rcases List.mem_cons.mp hu with rfl | hu
  · obtain ⟨q, hrec⟩ := hok
    refine ⟨q, hrec, ?_⟩
    rcases (hs.child q n hrec.1).2 with hr | ⟨z, hz⟩
    · exact Or.inr hr
    · rw [hn] at hz
      exact Or.inl (congrArg Entry.owner (Option.some.inj hz))
  · exact hs.uses u hu

theorem kept_reach {A : Type} {p : P} (hs : HostInv path s) {call : ProcCall} {n : Nat} {b : Bool}
    {missing failed : A} {found : Entry P → A} (hok : ∃ q, Recorded s (path p) q n) :
    Kept path p s (s.reach p call n b missing failed found).2 := by
  unfold Host.reach
  split
  · exact (Moved.refl s).kept hs
  · rename_i e he
    split
    · exact (Moved.refl s).kept hs
    · exact kept_use hs he hok

theorem make_path {p : P} {a b : CStr} :
    (s.make p a).path b = if b = a then some s.files else s.path b :=
  Function.update_apply s.path a (some s.files) b

theorem make_maker {p : P} {a : CStr} {f : Fd} :
    (s.make p a).maker f = if f = s.files then some (p, a) else s.maker f :=
  Function.update_apply s.maker s.files (some (p, a)) f

theorem kept_make {p : P} (hs : HostInv path s) {a : CStr} : Kept path p s (s.make p a) := by
  have hnew := hs.fresh s.files (Nat.le_refl _)
  have hmaker : ∀ f m, s.maker f = some m → (s.make p a).maker f = some m := by
    intro f m hf
    rw [make_maker, if_neg, hf]
    rintro rfl
    rw [hnew.1] at hf
    cases hf
  have hstep : HostStep (fun q => q = p) s (s.make p a) :=
    ⟨hmaker, fun _ _ => rfl, fun _ _ h => h, fun _ _ => ⟨rfl, fun _ _ _ => rfl⟩⟩
  refine ⟨⟨?_, ?_, ?_, hs.child, ?_⟩, hstep⟩
  · intro b f hf
    rw [make_path] at hf
    split at hf
    · rename_i hb
      cases hf
      exact ⟨p, by rw [hb, make_maker, if_pos rfl]⟩
    · obtain ⟨q, hq⟩ := hs.entry b f hf
      exact ⟨q, hmaker f _ hq⟩
  · intro f q b hf
    rw [make_maker] at hf
    split at hf
    · rename_i hb
      exact Or.inl (hb ▸ hnew.2)
    · exact hs.text f q b hf
  · intro f hf
    have hfiles : s.files < f := hf
    obtain ⟨hmk, htx⟩ := hs.fresh f (Nat.le_of_lt hfiles)
    exact ⟨by rw [make_maker, if_neg (Nat.ne_of_gt hfiles), hmk], htx⟩
  · intro u hu
    obtain ⟨q, hrec, howner⟩ := hs.uses u hu
    exact ⟨q, hrec.step hstep, howner⟩

theorem append_text {fd f : Fd} {data : List UInt8} :
    (s.append fd data).text f = if f = fd then s.text fd ++ data else s.text f :=
  Function.update_apply s.text fd (s.text fd ++ data) f

/-- The first write to a file, by the process that has made it. -/
theorem kept_append {p : P} (hs : HostInv path s) {fd : Fd} {n : Nat} {a : CStr}
    (hmaker : s.maker fd = some (p, a)) (htext : s.text fd = []) (hchild : s.child p = some n) :
    Kept path p s (s.append fd (intStr n)) := by
  have hsame : ∀ f, f ≠ fd → (s.append fd (intStr n)).text f = s.text f := by
    intro f hf
    rw [append_text, if_neg hf]
  have hnew : (s.append fd (intStr n)).text fd = intStr n := by
    rw [append_text, if_pos rfl, htext, List.nil_append]
  have hstep : HostStep (fun q => q = p) s (s.append fd (intStr n)) := by
    refine ⟨fun _ _ h => h, ?_, fun _ _ h => h, ?_⟩
    · intro f hf
      exact hsame f fun h => hf (h ▸ htext)
    · intro q hq
      refine ⟨rfl, fun f b hf => hsame f ?_⟩
      rintro rfl
      rw [hmaker] at hf
      cases hf
      exact hq rfl
  refine ⟨⟨hs.entry, ?_, ?_, hs.child, ?_⟩, hstep⟩
  · intro f q b hf
    by_cases hfd : f = fd
    · subst hfd
      have hq : s.maker f = some (q, b) := hf
      rw [hmaker] at hq
      cases hq
      exact Or.inr ⟨n, hchild, hnew⟩
    · rw [hsame f hfd]
      exact hs.text f q b hf
  · intro f hf
    obtain ⟨hmk, htx⟩ := hs.fresh f hf
    refine ⟨hmk, ?_⟩
    rw [hsame f, htx]
    rintro rfl
    rw [hmaker] at hmk
    cases hmk
  · intro u hu
    obtain ⟨q, hrec, howner⟩ := hs.uses u hu
    exact ⟨q, hrec.step hstep, howner⟩

theorem kept_unlink {p : P} (hs : HostInv path s) {a : CStr} :
    Kept path p s { s with path := Function.update s.path a none } := by
  refine ⟨⟨?_, hs.text, hs.fresh, hs.child, hs.uses⟩, HostStep.same rfl rfl rfl⟩
  intro b f hf
  dsimp only at hf
  rw [Function.update_apply] at hf
  split at hf
  · cases hf
  · exact hs.entry b f hf

variable [DecidableEq P]

theorem fork_child {p q : P} {n : Nat} :
    (s.fork p n).child q = if q = p then some n else s.child q :=
  Function.update_apply s.child p (some n) q

/-- A first child, under a pid that was free. -/
theorem kept_fork {p : P} (hs : HostInv path s) {n : Nat} (hpid : IsPid n) (hfree : s.holder n = none)
    (hchild : s.child p = none) : Kept path p s (s.fork p n) := by
  have hkeep : ∀ q m, s.child q = some m → (s.fork p n).child q = some m := by
    intro q m hq
    rw [fork_child, if_neg, hq]
    rintro rfl
    rw [hchild] at hq
    cases hq
  have hstep : HostStep (fun q => q = p) s (s.fork p n) := by
    refine ⟨fun _ _ h => h, fun _ _ => rfl, hkeep, fun q hq => ⟨?_, fun _ _ _ => rfl⟩⟩
    rw [fork_child, if_neg hq]
  refine ⟨⟨hs.entry, ?_, hs.fresh, ?_, ?_⟩, hstep⟩
  · intro f q a hf
    refine (hs.text f q a hf).imp id ?_
    rintro ⟨m, hm, htext⟩
    exact ⟨m, hkeep q m hm, htext⟩
  · intro q m hq
    rw [fork_child] at hq
    split at hq
    · rename_i hqp
      subst hqp
      cases hq
      exact ⟨hpid, Or.inr ⟨false, setHolder_self⟩⟩
    · obtain ⟨hm, hheld⟩ := hs.child q m hq
      refine ⟨hm, hheld.imp id ?_⟩
      rintro ⟨z, hz⟩
      refine ⟨z, (setHolder_of_ne ?_).trans hz⟩
      rintro rfl
      rw [hfree] at hz
      cases hz
  · intro u hu
    obtain ⟨q, hrec, howner⟩ := hs.uses u hu
    exact ⟨q, hrec.step hstep, howner⟩

theorem answer_create {p : P} {c : Turn} {a : CStr} : s.answer p c (.create a) =
    if c.fails ∨ (s.path a).isSome then (none, s) else (some s.files, s.make p a) := rfl

theorem answer_dprintf {p : P} {c : Turn} {fd : Fd} {n : Nat} : s.answer p c (.dprintf fd n) =
    if c.fails then (false, s) else (true, s.append fd (intStr n)) := rfl

theorem answer_waitpid {p : P} {c : Turn} {n : Nat} : s.answer p c (.waitpid n) =
    match s.holder n with
    | some ⟨.init q, zombie⟩ =>
        if q ≠ p then (.echild, s) else if zombie then (.status 0, s.reap n) else (.eintr, s)
    | _ => (.echild, s) := rfl

theorem answer_doSetup {p : P} {c : Turn} : s.answer p c .doSetup =
    if c.fails ∨ ¬ IsPid c.pid ∨ s.holder c.pid ≠ none then (none, s)
    else (some c.pid, s.fork p c.pid) := rfl

theorem answer_kept {p : P} (hs : HostInv path s) (c : Turn) {k : ProcCall}
    (hok : HostOk path p s k) : Kept path p s (s.answer p c k).2 := by
  have hsame : Kept path p s s := (Moved.refl s).kept hs
  cases k with
  | create a =>
    rw [answer_create]
    split
    · exact hsame
    · exact kept_make hs
  | dprintf fd n =>
    obtain ⟨⟨a, hmaker⟩, htext, hchild⟩ := hok
    rw [answer_dprintf]
    split
    · exact hsame
    · exact kept_append hs hmaker htext hchild
  | unlink a => exact kept_unlink hs
  | kill n sig => exact kept_reach hs hok
  | readPidStat n => exact kept_reach hs hok
  | chdirRoot n => exact kept_reach hs hok
  | readPidEnviron n => exact kept_reach hs hok
  | openNs n ns => exact kept_reach hs hok
  | waitpid n =>
    rw [answer_waitpid]
    split
    · split
      · exact hsame
      · split
        · exact (moved_reap n).kept hs
        · exact hsame
    · exact hsame
  | doSetup =>
    rw [answer_doSetup]
    split
    · exact hsame
    · rename_i h
      simp only [not_or, not_not] at h
      exact kept_fork hs h.2.1 h.2.2 hok
  | _ => exact hsame

end Answers

section Protocol

variable {path : P → CStr} {s t : Host P}

theorem HostStep.weaken {M M' : P → Prop} (h : HostStep M s t)
    (hmine : ∀ q, M q → M' q) : HostStep M' s t where
  maker := h.maker
  text := h.text
  child := h.child
  others q hq := h.others q fun hm => hq (hmine q hm)

/-- Nobody loses what the host keeps, and nobody touches what another has made. -/
def hostProtocol (path : P → CStr) : Protocol P (Host P) where
  guar p s t := HostInv path s → Kept path p s t
  rely p s t := HostInv path s → HostInv path t ∧ HostStep (fun q => q ≠ p) s t
  refl p s h := ⟨h, HostStep.same rfl rfl rfl⟩
  trans p s t u hst htu h := by
    obtain ⟨ht, hstep⟩ := hst h
    obtain ⟨hu, hstep'⟩ := htu ht
    exact ⟨hu, hstep.trans hstep'⟩
  others p q s t hpq h hs := by
    obtain ⟨ht, hstep⟩ := h hs
    exact ⟨ht, hstep.weaken fun r hr hq => hpq (hr.symm.trans hq)⟩

/-- The others do not take `Q` away. -/
def Lasting (path : P → CStr) (p : P) (Q : Host P → Prop) : Prop :=
  ∀ s t, HostInv path s → Q s → HostStep (fun q => q ≠ p) s t → Q t

variable {p : P}

theorem Lasting.and {Q R : Host P → Prop} (hQ : Lasting path p Q) (hR : Lasting path p R) :
    Lasting path p fun s => Q s ∧ R s :=
  fun s t hs h hstep => ⟨hQ s t hs h.1 hstep, hR s t hs h.2 hstep⟩

theorem Lasting.const (b : Prop) : Lasting path p fun _ => b := fun _ _ _ h _ => h

/-- `p` has no child yet. -/
def Idle (p : P) (s : Host P) : Prop := s.child p = none

/-- The pid is the one that is recorded in the pidfile of `p`. -/
def Named (path : P → CStr) (p : P) (n : Nat) (s : Host P) : Prop := ∃ q, Recorded s (path p) q n

/-- The file was made as the pidfile of `p`. -/
def Behind (path : P → CStr) (p : P) (fd : Fd) (s : Host P) : Prop :=
  ∃ q, s.maker fd = some (q, path p)

/-- The file is the one that `p` has made, and is empty. -/
def Own (p : P) (fd : Fd) (s : Host P) : Prop := (∃ a, s.maker fd = some (p, a)) ∧ s.text fd = []

theorem lasting_idle : Lasting path p (Idle p) :=
  fun _ _ _ h hstep => (hstep.others p fun hne => hne rfl).1.trans h

theorem lasting_named (n : Nat) : Lasting path p (Named path p n) :=
  fun _ _ _ h hstep => h.imp fun _ hrec => hrec.step hstep

theorem lasting_behind (fd : Fd) : Lasting path p (Behind path p fd) :=
  fun _ _ _ h hstep => h.imp fun _ hq => hstep.maker fd _ hq

theorem lasting_own (fd : Fd) : Lasting path p (Own p fd) := by
  rintro s t _ ⟨⟨a, ha⟩, htext⟩ hstep
  exact ⟨⟨a, hstep.maker fd _ ha⟩, ((hstep.others p fun hne => hne rfl).2 fd a ha).trans htext⟩

theorem lasting_child (n : Nat) : Lasting path p fun s => s.child p = some n :=
  fun _ _ _ h hstep => hstep.child p n h

/-- A pid is only ever read from a pidfile that holds it. -/
theorem named_of_read {fd : Fd} {n : Nat} (hs : HostInv path s) (hfd : Behind path p fd s)
    (hread : parsePid (cstring ((s.text fd).take 63)) = some n) : Named path p n s := by
  obtain ⟨q, hmaker⟩ := hfd
  rcases hs.text fd q _ hmaker with hempty | ⟨m, hchild, htext⟩
  · rw [hempty] at hread
    have hnone : parsePid (cstring (([] : List UInt8).take 63)) = none := by decide
    rw [hnone] at hread
    cases hread
  · have hpid := (hs.child q m hchild).1
    have hshort := length_intStr_le hpid
    rw [htext, List.take_of_length_le (by omega), cstring_eq_self (zero_notin_intStr m),
      parsePid_intStr hpid] at hread
    cases hread
    exact ⟨q, hchild, fd, hmaker, htext⟩

variable [DecidableEq P] {A B : Type} {I : Host P → Prop} {Q : A → Host P → Prop}

/-- From every state with `I`, `m` knows enough before each call, and ends in `Q`. -/
def Holds (path : P → CStr) (p : P) (I : Host P → Prop) (m : ProcM A) (Q : A → Host P → Prop) :
    Prop :=
  ∀ s, HostInv path s → I s → m.Safe (fun p (c : Turn) k => hostAnswer p c k) (fun _ _ _ => True)
    (hostProtocol path) p (fun a t => HostInv path t ∧ Q a t) s

theorem Holds.pure {a : A} (h : ∀ s, I s → Q a s) : Holds path p I (pure a) Q :=
  fun s hs hI => ⟨hs, h s hI⟩

theorem Holds.bind {m : ProcM A} {f : A → ProcM B} {Q' : B → Host P → Prop}
    (hm : Holds path p I m Q) (hf : ∀ a, Holds path p (Q a) (f a) Q') :
    Holds path p I (m >>= f) Q' :=
  fun s hs hI => Safe.bind m (Safe.mono (fun a t ht => hf a t ht.1 ht.2) m (hm s hs hI))

theorem Holds.ite {c : Prop} [Decidable c] {m n : ProcM A} (hm : c → Holds path p I m Q)
    (hn : ¬ c → Holds path p I n Q) : Holds path p I (if c then m else n) Q := by
  split
  · rename_i h
    exact hm h
  · rename_i h
    exact hn h

theorem Holds.conseq {m : ProcM A} {I' : Host P → Prop} {Q' : A → Host P → Prop}
    (h : Holds path p I m Q) (hI : ∀ s, I' s → I s) (hQ : ∀ a s, Q a s → Q' a s) :
    Holds path p I' m Q' :=
  fun s hs hs' => Safe.mono (fun a t ht => ⟨ht.1, hQ a t ht.2⟩) m (h s hs (hI s hs'))

/-- A call, from what is known before it; the host may move before it is answered. -/
theorem Holds.sys {k : ProcCall} {Q : k.Ret → Host P → Prop} (hI : Lasting path p I)
    (hok : ∀ s, I s → HostOk path p s k)
    (hQ : ∀ s c, HostInv path s → I s → Q (s.answer p c k).1 (s.answer p c k).2)
    (hlast : ∀ r, Lasting path p (Q r)) : Holds path p I (ProcM.sys k) Q := by
  intro s hs hIs _ c
  have hmoved : Moved s (s.moves c.moves) := moved_moves c.moves
  have hIm : I (s.moves c.moves) := hI s _ hs hIs hmoved.step
  have hkept := answer_kept (hmoved.inv hs) c (hok _ hIm)
  refine ⟨fun _ => ⟨hkept.1, hmoved.step.trans hkept.2⟩, ?_⟩
  intro t hrely
  obtain ⟨ht, hstep⟩ := hrely hkept.1
  exact ⟨ht, hlast _ _ t hkept.1 (hQ _ c (hmoved.inv hs) hIm) hstep⟩

/-- A call that makes no file, writes none and forks no child. -/
def ProcCall.Quiet : ProcCall → Prop
  | .create _ | .dprintf _ _ | .doSetup => False
  | _ => True

theorem answer_quiet (c : Turn) {k : ProcCall} (hk : k.Quiet) {M : P → Prop} :
    HostStep M s (s.answer p c k).2 := by
  have hsame : HostStep M s s := (Moved.refl s).step
  have hreach : ∀ {A : Type} {call : ProcCall} {n : Nat} {b : Bool} {x y : A} {f : Entry P → A},
      HostStep M s (s.reach p call n b x y f).2 := by
    intro A call n b x y f
    unfold Host.reach
    split
    · exact hsame
    · split
      · exact hsame
      · exact HostStep.same rfl rfl rfl
  cases k with
  | create | dprintf | doSetup => exact hk.elim
  | unlink => exact HostStep.same rfl rfl rfl
  | kill => exact hreach
  | readPidStat => exact hreach
  | chdirRoot => exact hreach
  | readPidEnviron => exact hreach
  | openNs => exact hreach
  | waitpid n =>
    rw [answer_waitpid]
    split
    · split
      · exact hsame
      · split
        · exact (moved_reap n).step
        · exact hsame
    · exact hsame
  | _ => exact hsame

/-- A quiet call takes nothing away, and may tell something that lasts. -/
theorem Holds.quiet {k : ProcCall} (hk : k.Quiet) {F : k.Ret → Host P → Prop}
    (hI : Lasting path p I) (hF : ∀ r, Lasting path p (F r)) (hok : ∀ s, I s → HostOk path p s k)
    (h : ∀ s c, HostInv path s → I s → F (s.answer p c k).1 s) :
    Holds path p I (ProcM.sys k) fun r t => I t ∧ F r t := by
  refine Holds.sys hI hok ?_ fun r => hI.and (hF r)
  intro s c hs hIs
  exact ⟨hI s _ hs hIs (answer_quiet c hk), hF _ s _ hs (h s c hs hIs) (answer_quiet c hk)⟩

theorem Holds.aside {k : ProcCall} (hk : k.Quiet) (hI : Lasting path p I)
    (hok : ∀ s, I s → HostOk path p s k) : Holds path p I (ProcM.sys k) fun _ => I :=
  (Holds.quiet hk hI (fun _ => Lasting.const True) hok fun _ _ _ _ => trivial).conseq
    (fun _ h => h) fun _ _ h => h.1

/-- A call that uses no other pid than `n`, and is quiet. -/
def ProcCall.On (n : Nat) : ProcCall → Prop
  | .kill m _ | .readPidStat m | .chdirRoot m | .readPidEnviron m | .openNs m _ => m = n
  | .create _ | .dprintf _ _ | .doSetup => False
  | _ => True

theorem ProcCall.On.quiet {n : Nat} {k : ProcCall} (h : k.On n) : k.Quiet := by
  cases k with
  | create | dprintf | doSetup => exact h
  | _ => exact trivial

omit [DecidableEq P] in
theorem ProcCall.On.ok {n : Nat} {k : ProcCall} (h : k.On n) (hs : Named path p n s) :
    HostOk path p s k := by
  cases k with
  | kill | readPidStat | chdirRoot | readPidEnviron | openNs =>
    subst h
    exact hs
  | create | dprintf | doSetup => exact h.elim
  | _ => exact trivial

theorem Holds.all {ok : ProcCall → Prop} {m : ProcM A} (hm : m.AllCalls ok) (hI : Lasting path p I)
    (hok : ∀ k s, ok k → I s → k.Quiet ∧ HostOk path p s k) : Holds path p I m fun _ => I := by
  intro s hs hIs
  induction m generalizing s with
  | done a => exact ⟨hs, hIs⟩
  | call k next ih =>
    exact Holds.bind (Holds.aside (hok k s hm.1 hIs).1 hI fun t ht => (hok k t hm.1 ht).2)
      (fun r t ht hIt => ih r (hm.2 r) t ht hIt) s hs hIs

/-- A program that uses the pid from the pidfile, and no other. -/
theorem Holds.on {n : Nat} {m : ProcM A} (hm : m.AllCalls (ProcCall.On n)) (hI : Lasting path p I)
    (hnamed : ∀ s, I s → Named path p n s) : Holds path p I m fun _ => I :=
  Holds.all hm hI fun _ s hk hs => ⟨hk.quiet, hk.ok (hnamed s hs)⟩

/-- A quiet call that uses no pid. -/
def ProcCall.Plain : ProcCall → Prop
  | .kill _ _ | .readPidStat _ | .chdirRoot _ | .readPidEnviron _ | .openNs _ _ => False
  | .create _ | .dprintf _ _ | .doSetup => False
  | _ => True

theorem Holds.plain {m : ProcM A} (hm : m.AllCalls ProcCall.Plain) (hI : Lasting path p I) :
    Holds path p I m fun _ => I := by
  refine Holds.all hm hI fun k s hk _ => ?_
  cases k with
  | kill | readPidStat | chdirRoot | readPidEnviron | openNs | create | dprintf | doSetup =>
    exact hk.elim
  | _ => exact ⟨trivial, trivial⟩

section Programs

variable {n : Nat}

theorem on_sys {k : ProcCall} (h : k.On n) : (ProcM.sys k).AllCalls (ProcCall.On n) :=
  ⟨h, fun _ => trivial⟩

theorem all_pidwait {ok : ProcCall → Prop} (fuel m : Nat) (h : ok (.waitpid m)) :
    (pidwait fuel m).AllCalls ok := by
  induction fuel with
  | zero => exact trivial
  | succ fuel ih =>
    refine AllCalls.bind (m := ProcM.sys (.waitpid m)) ⟨h, fun _ => trivial⟩ fun r => ?_
    cases r with
    | eintr => exact ih
    | status | echild | other => exact trivial

theorem on_pidexists : (pidexists n).AllCalls (ProcCall.On n) := by
  refine AllCalls.bind (on_sys rfl) fun r => ?_
  cases r <;> exact trivial

theorem on_pollExit (polls : Nat) : (pollExit n polls).AllCalls (ProcCall.On n) := by
  induction polls with
  | zero => exact trivial
  | succ polls ih =>
    refine AllCalls.bind on_pidexists fun ret => ?_
    split
    · exact trivial
    · split
      · exact trivial
      · exact AllCalls.bind (on_sys trivial) fun _ => ih

theorem on_waitpidGraceful (fuel : Nat) : (waitpidGraceful fuel n).AllCalls (ProcCall.On n) := by
  refine AllCalls.bind (on_pollExit 50) fun ret => ?_
  cases ret with
  | some ret => exact trivial
  | none =>
    refine AllCalls.bind (on_sys rfl) fun r => ?_
    cases r with
    | esrch | other => exact trivial
    | ok => exact all_pidwait fuel n trivial

theorem on_killGracefully (fuel : Nat) : (killGracefully fuel n).AllCalls (ProcCall.On n) := by
  refine AllCalls.bind (on_sys rfl) fun r => ?_
  cases r with
  | esrch | other => exact trivial
  | ok => exact on_waitpidGraceful fuel

theorem on_pidZombie : (pidZombie n).AllCalls (ProcCall.On n) := by
  refine AllCalls.bind (on_sys rfl) fun r => ?_
  cases r <;> exact trivial

theorem on_stopTarget (fuel : Nat) : (stopTarget fuel n).AllCalls (ProcCall.On n) := by
  refine AllCalls.bind on_pidZombie fun z => ?_
  split
  · exact trivial
  · exact on_killGracefully fuel

theorem on_pidJoinable : (pidJoinable n).AllCalls (ProcCall.On n) := by
  refine AllCalls.bind on_pidexists fun e => ?_
  split
  · exact trivial
  · exact AllCalls.bind on_pidZombie fun _ => trivial

theorem all_closePid {ok : ProcCall → Prop} (fd : Fd) (hunlock : ok (.unlock fd))
    (hclose : ok (.close fd)) : (closePid fd).AllCalls ok :=
  AllCalls.bind (m := ProcM.sys (.unlock fd)) ⟨hunlock, fun _ => trivial⟩
    fun _ => ⟨hclose, fun _ => trivial⟩

theorem on_joinAll (l : List CStr) : (joinAll n l).AllCalls (ProcCall.On n) := by
  induction l with
  | nil => exact trivial
  | cons ns rest ih =>
    refine AllCalls.bind (AllCalls.bind (on_sys rfl) fun fd => ?_) fun r => ?_
    · cases fd with
      | none => exact trivial
      | some fd =>
        exact AllCalls.bind (on_sys trivial) fun _ =>
          AllCalls.bind (on_sys trivial) fun _ => trivial
    · split
      · exact trivial
      · exact ih

theorem on_spawnExisting (graphical : Bool) :
    (spawnExisting graphical n).AllCalls (ProcCall.On n) := by
  refine AllCalls.bind (on_sys rfl) fun ok => ?_
  split
  · exact trivial
  · dsimp only
    split
    · exact AllCalls.bind (on_sys rfl) fun _ => on_joinAll _
    · exact AllCalls.bind (m := pure none) trivial fun _ => on_joinAll _

end Programs

/-- What `readpid` has found, if anything. -/
def Found (path : P → CStr) (p : P) (r : Option (Nat × Fd)) (s : Host P) : Prop :=
  ∀ n fd, r = some (n, fd) → Named path p n s

omit [DecidableEq P] in
theorem lasting_found (r : Option (Nat × Fd)) : Lasting path p (Found path p r) :=
  fun s t hs h hstep n fd hr => lasting_named n s t hs (h n fd hr) hstep

theorem holds_readpid :
    Holds path p (Idle p) (readpid (path p)) fun r t => Idle p t ∧ Found path p r t := by
  have hnone : ∀ {I : Host P → Prop}, (∀ s, I s → Idle p s) →
      Holds path p I (pure none) fun r t => Idle p t ∧ Found path p r t :=
    fun hI => Holds.pure fun s h => ⟨hI s h, fun _ _ hr => nomatch hr⟩
  have hclose : ∀ {I : Host P → Prop} (f : Fd), Lasting path p I → (∀ s, I s → Idle p s) →
      Holds path p I (ProcM.sys (.close f) >>= fun _ => pure none) fun r t =>
        Idle p t ∧ Found path p r t :=
    fun f hI hidle => Holds.bind (Holds.aside trivial hI fun _ _ => trivial) fun _ => hnone hidle
  refine Holds.bind (Holds.quiet (k := .openRead (path p)) trivial
    (F := fun r s => ∀ f, r = some f → Behind path p f s) lasting_idle ?_ (fun _ _ => trivial) ?_) ?_
  · exact fun r s t hs h hstep f hr => lasting_behind f s t hs (h f hr) hstep
  · intro s c hs _ f hf
    have hf' : (if c.fails then none else s.path (path p)) = some f := hf
    split at hf'
    · cases hf'
    · exact hs.entry (path p) f hf'
  · intro f
    cases f with
    | none => exact hnone fun s h => h.1
    | some f =>
      have hI : Lasting path p fun s => Idle p s ∧ Behind path p f s :=
        lasting_idle.and (lasting_behind f)
      refine Holds.bind (Q := fun _ s => Idle p s ∧ Behind path p f s)
        ((Holds.aside (k := .flock f) trivial hI fun _ _ => trivial).conseq
          (fun s h => ⟨h.1, h.2 f rfl⟩) fun _ _ h => h) ?_
      intro ok
      cases ok with
      | false => exact hclose f hI fun s h => h.1
      | true =>
        refine Holds.bind (Holds.quiet (k := .read f 63) trivial
          (F := fun r s => ∀ buf, r = some buf →
            ∀ n, parsePid (cstring buf) = some n → Named path p n s) hI ?_ (fun _ _ => trivial) ?_) ?_
        · exact fun r s t hs h hstep buf hr n hn => lasting_named n s t hs (h buf hr n hn) hstep
        · intro s c hs hI buf hbuf n hn
          have hbuf' : (if c.fails then none else some ((s.text f).take 63)) = some buf := hbuf
          split at hbuf'
          · cases hbuf'
          · cases hbuf'
            exact named_of_read hs hI.2 hn
        · intro r
          have hI' : Lasting path p fun s => (Idle p s ∧ Behind path p f s) ∧ ∀ buf, r = some buf →
              ∀ n, parsePid (cstring buf) = some n → Named path p n s :=
            hI.and fun s t hs h hstep buf hr n hn => lasting_named n s t hs (h buf hr n hn) hstep
          cases r with
          | none => exact hclose f hI' fun s h => h.1.1
          | some buf =>
            dsimp only
            split
            · exact hclose f hI' fun s h => h.1.1
            · rename_i n hn
              refine Holds.pure fun s h => ⟨h.1.1, ?_⟩
              intro m fd hr
              cases hr
              exact h.2 buf rfl n hn

theorem holds_killpid (fuel : Nat) (name pidfile : Option CStr)
    (hpath : path p = resolvePidfile name pidfile) :
    Holds path p (Idle p) (killpid fuel name pidfile) fun _ _ => True := by
  unfold killpid
  dsimp only
  rw [← hpath]
  refine Holds.bind (Q := fun _ => Idle p)
    (Holds.bind (Holds.aside trivial lasting_idle fun _ _ => trivial) fun _ => Holds.pure fun _ h => h) ?_
  intro e
  refine Holds.ite (fun _ => Holds.pure fun _ _ => trivial) fun _ => ?_
  refine Holds.ite (fun _ => ?_) fun _ => Holds.pure fun _ _ => trivial
  refine Holds.bind holds_readpid fun r => ?_
  cases r with
  | none => exact Holds.pure fun _ _ => trivial
  | some r =>
    obtain ⟨n, fd⟩ := r
    have hI : Lasting path p fun s => Idle p s ∧ Found path p (some (n, fd)) s :=
      lasting_idle.and (lasting_found _)
    have hnamed : ∀ s, Idle p s ∧ Found path p (some (n, fd)) s → Named path p n s :=
      fun s h => h.2 n fd rfl
    refine Holds.bind (Holds.on (all_closePid fd trivial trivial) hI hnamed) fun _ => ?_
    refine Holds.bind (Holds.on (on_stopTarget fuel) hI hnamed) fun r => ?_
    cases r with
    | none => exact Holds.pure fun _ _ => trivial
    | some r =>
      exact Holds.bind (Holds.aside trivial hI fun _ _ => trivial) fun _ =>
        Holds.pure fun _ _ => trivial

/-- What `detect_existing` returns to be joined is the pid in the pidfile. -/
theorem holds_detectExisting (name pidfile : Option CStr)
    (hpath : path p = resolvePidfile name pidfile) :
    Holds path p (Idle p) (detectExisting name pidfile) fun r t =>
      Idle p t ∧ (0 < r → Named path p r.toNat t) := by
  have hzero : ∀ {I : Host P → Prop} {z : Int}, z ≤ 0 → (∀ s, I s → Idle p s) →
      Holds path p I (pure z) fun r t => Idle p t ∧ (0 < r → Named path p r.toNat t) :=
    fun hz hI => Holds.pure fun s h => ⟨hI s h, fun hpos => absurd hpos (by omega)⟩
  have hunlink : ∀ {I : Host P → Prop}, Lasting path p I → (∀ s, I s → Idle p s) →
      Holds path p I (ProcM.sys (.unlink (path p)) >>= fun _ => pure (0 : Int)) fun r t =>
        Idle p t ∧ (0 < r → Named path p r.toNat t) :=
    fun hI hidle => Holds.bind (Holds.aside trivial hI fun _ _ => trivial) fun _ =>
      hzero (Int.le_refl 0) hidle
  unfold detectExisting
  dsimp only
  rw [← hpath]
  refine Holds.bind (Q := fun _ => Idle p)
    (Holds.bind (Holds.aside trivial lasting_idle fun _ _ => trivial) fun _ => Holds.pure fun _ h => h) ?_
  intro e
  refine Holds.ite (fun _ => hzero (by split <;> decide) fun _ h => h) fun _ => ?_
  refine Holds.bind holds_readpid fun r => ?_
  have hI : Lasting path p fun s => Idle p s ∧ Found path p r s :=
    lasting_idle.and (lasting_found r)
  cases r with
  | none => exact hunlink hI fun s h => h.1
  | some r =>
    obtain ⟨n, fd⟩ := r
    have hnamed : ∀ s, Idle p s ∧ Found path p (some (n, fd)) s → Named path p n s :=
      fun s h => h.2 n fd rfl
    refine Holds.bind (Holds.on (all_closePid fd trivial trivial) hI hnamed) fun _ => ?_
    refine Holds.bind (Holds.on on_pidJoinable hI hnamed) fun joinable => ?_
    refine Holds.ite (fun _ => Holds.pure fun s h => ⟨h.1, fun _ => ?_⟩) fun _ => hunlink hI fun s h => h.1
    exact hnamed s h

theorem plain_ensureDir (dir : CStr) : (ensureDir dir).AllCalls ProcCall.Plain := by
  have hsys : ∀ {k : ProcCall}, k.Plain → (ProcM.sys k).AllCalls ProcCall.Plain :=
    fun h => ⟨h, fun _ => trivial⟩
  refine AllCalls.bind (AllCalls.bind (hsys trivial) fun _ => trivial) fun e => ?_
  split
  · exact AllCalls.bind (hsys trivial) fun _ => trivial
  · split
    · exact trivial
    · exact AllCalls.bind (hsys trivial) fun _ => trivial

theorem holds_openAndLock (a : CStr) :
    Holds path p (Idle p) (openAndLock a) fun r t => Idle p t ∧ ∀ fd, r = some fd → Own p fd t := by
  have hlast : ∀ r : Option Fd, Lasting path p fun t => Idle p t ∧ ∀ fd, r = some fd → Own p fd t :=
    fun r => lasting_idle.and fun s t hs h hstep fd hr => lasting_own fd s t hs (h fd hr) hstep
  refine Holds.bind (Holds.sys (k := .create a) (Q := fun r t =>
    Idle p t ∧ ∀ fd, r = some fd → Own p fd t) lasting_idle (fun _ _ => trivial) ?_ hlast) ?_
  · intro s c hs hidle
    rw [answer_create]
    split
    · exact ⟨hidle, fun fd hfd => nomatch hfd⟩
    · refine ⟨hidle, fun fd hfd => ?_⟩
      cases hfd
      exact ⟨⟨a, by rw [make_maker, if_pos rfl]⟩, (hs.fresh s.files (Nat.le_refl _)).2⟩
  · intro fd
    cases fd with
    | none => exact Holds.pure fun _ h => ⟨h.1, fun _ hfd => nomatch hfd⟩
    | some fd =>
      refine Holds.bind (Holds.aside (k := .flock fd) trivial (hlast (some fd)) fun _ _ => trivial) ?_
      intro ok
      cases ok with
      | false =>
        exact Holds.bind (Holds.aside (k := .close fd) trivial (hlast (some fd)) fun _ _ => trivial)
          fun _ => Holds.pure fun _ h => ⟨h.1, fun _ hfd => nomatch hfd⟩
      | true => exact Holds.pure fun _ h => h

theorem holds_createPidfile (a : CStr) :
    Holds path p (Idle p) (createPidfile a) fun r t => Idle p t ∧ ∀ fd, r = some fd → Own p fd t := by
  have hnone : Holds path p (Idle p) (pure none) fun (r : Option Fd) t =>
      Idle p t ∧ ∀ fd, r = some fd → Own p fd t :=
    Holds.pure fun _ h => ⟨h, fun _ hfd => nomatch hfd⟩
  unfold createPidfile
  split
  · exact holds_openAndLock a
  · refine Holds.ite (fun _ => hnone) fun _ => ?_
    refine Holds.bind (Holds.plain (plain_ensureDir _) lasting_idle) fun r => ?_
    exact Holds.ite (fun _ => hnone) fun _ => holds_openAndLock a

theorem holds_spawnCage (fuel : Nat) (a : CStr) :
    Holds path p (Idle p) (spawnCage fuel a) fun _ _ => True := by
  have hend : ∀ {I : Host P → Prop} {z : Int}, Lasting path p I →
      Holds path p I (ProcM.sys (.unlink a) >>= fun _ => pure (some z)) fun _ _ => True :=
    fun hI => Holds.bind (Holds.aside trivial hI fun _ _ => trivial) fun _ =>
      Holds.pure fun _ _ => trivial
  refine Holds.bind (holds_createPidfile a) fun fd => ?_
  cases fd with
  | none => exact Holds.pure fun _ _ => trivial
  | some fd =>
    have hlast : ∀ r : Option Nat, Lasting path p fun t => Own p fd t ∧ ∀ n, r = some n →
        t.child p = some n :=
      fun r => (lasting_own fd).and fun s t hs h hstep n hr => lasting_child n s t hs (h n hr) hstep
    refine Holds.bind (Holds.sys (k := .doSetup) (I := fun s => Idle p s ∧ Own p fd s)
      (Q := fun r t => Own p fd t ∧ ∀ n, r = some n → t.child p = some n)
      (lasting_idle.and (lasting_own fd)) (fun _ h => h.1) ?_ hlast |>.conseq
        (fun s h => ⟨h.1, h.2 fd rfl⟩) fun _ _ h => h) ?_
    · intro s c _ hI
      rw [answer_doSetup]
      split
      · exact ⟨hI.2, fun _ hn => nomatch hn⟩
      · refine ⟨hI.2, fun n hn => ?_⟩
        cases hn
        rw [fork_child, if_pos rfl]
    · intro child
      cases child with
      | none =>
        refine Holds.bind (Holds.plain (all_closePid fd trivial trivial) (hlast none)) fun _ => ?_
        exact hend (hlast none)
      | some n =>
        refine Holds.bind (Q := fun _ _ => True) (Holds.sys (k := .dprintf fd n) (hlast (some n))
          (fun s h => ⟨h.1.1, h.1.2, h.2 n rfl⟩) (fun _ _ _ _ => trivial)
          fun _ => Lasting.const True) fun _ => ?_
        refine Holds.bind (Holds.plain (all_closePid fd trivial trivial) (Lasting.const True))
          fun _ => ?_
        refine Holds.bind (Holds.plain (all_pidwait fuel n trivial) (Lasting.const True)) fun r => ?_
        cases r with
        | none => exact Holds.pure fun _ _ => trivial
        | some r => exact hend (Lasting.const True)

theorem holds_doSpawn (fuel : Nat) (graphical : Bool) (name pidfile : Option CStr)
    (hpath : path p = resolvePidfile name pidfile) :
    Holds path p (Idle p) (doSpawn fuel graphical name pidfile) fun _ _ => True := by
  refine Holds.bind (holds_detectExisting name pidfile hpath) fun existing => ?_
  refine Holds.ite (fun _ => Holds.pure fun _ _ => trivial) fun _ => ?_
  refine Holds.ite (fun hpos => ?_) fun _ => ?_
  · have hI : Lasting path p fun s => Idle p s ∧ (0 < existing → Named path p existing.toNat s) :=
      lasting_idle.and fun s t hs h hstep h0 => lasting_named _ s t hs (h h0) hstep
    exact Holds.bind (Holds.on (on_spawnExisting graphical) hI fun s h => h.2 hpos) fun _ =>
      Holds.pure fun _ _ => trivial
  · exact Holds.bind ((holds_spawnCage fuel _).conseq (fun _ h => h.1) fun _ _ h => h) fun _ =>
      Holds.pure fun _ _ => trivial

theorem holds_task (t : Task) (fuel : Nat) (hpath : path p = t.path) :
    Holds path p (Idle p) (t.prog fuel) fun _ _ => True := by
  cases t with
  | kill name pidfile => exact holds_killpid fuel name pidfile hpath
  | run graphical name pidfile => exact holds_doSpawn fuel graphical name pidfile hpath

end Protocol

section Runs

variable [DecidableEq P] {task : P → Task} {fuel : P → Nat} {w w' : HostWorld P}

omit [DecidableEq P] in
theorem FreshHost.inv {s : Host P} (h : FreshHost s) : HostInv path s where
  entry a f hf := by
    rw [h.path] at hf
    cases hf
  text f q a hf := by
    rw [h.maker] at hf
    cases hf
  fresh f _ := ⟨h.maker f, h.text f⟩
  child q n hq := by
    rw [h.child] at hq
    cases hq
  uses u hu := by
    rw [h.uses] at hu
    cases hu

/-- In every run, whoever is reached by a pid from a pidfile is the init child
that was recorded there, or has its pid since that child was reaped. -/
theorem pidfile_reaches_pid (hw : FreshWorld task fuel w)
    (hrun : Run (Lib.Program.step fun p (c : Turn) k => hostAnswer p c k) Any w w') :
    ReachesPid (fun p => (task p).path) w'.shared := by
  have hinv : HostInv (fun p => (task p).path) w.shared := hw.shared.inv _
  have hsafe : AllSafe (fun p (c : Turn) k => hostAnswer p c k) (fun _ _ _ => True)
      (hostProtocol fun p => (task p).path) (fun _ _ t => HostInv (fun p => (task p).path) t ∧ True)
      w := by
    intro p s hrely
    obtain ⟨hs, hstep⟩ := hrely hinv
    have hidle : Idle p s := lasting_idle w.shared s hinv (hw.shared.child p) hstep
    have htask : Holds (fun p => (task p).path) p (Idle p) ((task p).prog (fuel p)) fun _ _ => True :=
      holds_task (task p) (fuel p) rfl
    rw [hw.prog p]
    exact htask s hs hidle
  have hallowed : Run (Lib.Program.step fun p (c : Turn) k => hostAnswer p c k)
      (Allowed fun _ _ _ => True) w w' :=
    hrun.weaken fun s a _ => allowed_of_all (fun _ _ _ => trivial) s a
  exact (hsafe.shared (HostInv fun p => (task p).path) (fun p s t hguar hs => (hguar hs).1) hinv
    hallowed).uses

end Runs

section Crash

/-- A run that is killed, and `cage -k` after it. -/
def crashTask : Bool → Task
  | false => .run false none none
  | true => .kill none none

def crashWorld : HostWorld Bool where
  shared :=
    { path := fun _ => none, files := 0, text := fun _ => [], maker := fun _ => none,
      holder := fun _ => none, child := fun _ => none, reaped := fun _ => false, uses := [] }
  prog p := (crashTask p).prog 1
  dead _ := false

def turn (moves : List Move) : Turn := { moves := moves, fails := false, pid := 7, text := [] }

/-- The run records the pid 7 and is killed; its init child exits and is reaped,
another process starts as 7, and is sent `SIGTERM`. -/
def crashActs : List (Lib.Program.Act Bool Turn) :=
  List.replicate 9 (.calls false (turn [])) ++
    .dies false :: .calls true (turn [.exits 7, .reaps 7, .starts 7]) ::
      List.replicate 7 (.calls true (turn []))

theorem crashWorld_fresh : FreshWorld crashTask (fun _ => 1) crashWorld :=
  ⟨⟨fun _ => rfl, fun _ => rfl, fun _ => rfl, (fun _ _ h => nomatch h), fun _ => rfl, fun _ => rfl,
    rfl⟩, fun _ => rfl⟩

set_option maxRecDepth 10000 in
theorem crash_run : ∃ w' : HostWorld Bool,
    exec (Lib.Program.step fun p (c : Turn) k => hostAnswer p c k) crashWorld crashActs = some w' ∧
    w'.shared.uses.map (fun u => (u.call.acts, u.owner)) = [(true, .other), (false, .other)] :=
  Option.map_eq_some_iff.mp (by decide)

theorem pidfile_reaches_pid_crash : ∃ w' : HostWorld Bool,
    Run (Lib.Program.step fun p (c : Turn) k => hostAnswer p c k) Any crashWorld w' ∧ w'.shared.uses ≠ [] ∧
    ReachesPid (fun p => (crashTask p).path) w'.shared := by
  obtain ⟨w', hexec, huses⟩ := crash_run
  have hrun := exec_run crashActs hexec
  refine ⟨w', hrun, ?_, pidfile_reaches_pid crashWorld_fresh hrun⟩
  intro hnil
  rw [hnil] at huses
  cases huses

/-- `cage -k` sends its signal to a process that is no init child. -/
theorem pidfile_reaches_other : ∃ w w' : HostWorld Bool, FreshWorld crashTask (fun _ => 1) w ∧
    Run (Lib.Program.step fun p (c : Turn) k => hostAnswer p c k) Any w w' ∧
    ¬ ReachesInit (fun p => (crashTask p).path) w'.shared := by
  obtain ⟨w', hexec, huses⟩ := crash_run
  refine ⟨crashWorld, w', crashWorld_fresh, exec_run crashActs hexec, ?_⟩
  intro h
  obtain ⟨u, hu, hother⟩ := List.mem_map.mp (huses ▸ List.mem_cons_self)
  obtain ⟨q, -, hq⟩ := h u hu (congrArg Prod.fst hother)
  cases (congrArg Prod.snd hother).symm.trans hq

end Crash

end Cage.Core
