import Mathlib.Logic.Function.Basic
import Cage.Lib.Ensures
import Cage.Util.MemPath

/-!
The loop devices of `src/sandbox/loop.c`. Other programs attach files to them and detach
theirs meanwhile, so what has been found free need not be free any more.
-/

namespace Cage.Sandbox.LoopDevice

open Lib.Program Util
open Function (update)

inductive LoopErrno where
  | enoent
  | eacces
  | enospc
  | enxio
  | other
  deriving DecidableEq, Repr

inductive LoopCall where
  | access
  | modprobe
  | openControl
  | getFree (ctl : Nat)
  | add (ctl : Nat)
  | openDev (n : Nat)
  | getStat (dev : Nat)
  | openRw (path : CStr)
  | setFd (dev img : Nat)
  | setStatus64 (dev : Nat)
  | clrFd (dev : Nat)
  | close (fd : Nat)

/-- A descriptor, the number of a device or 0; an error is -1 and its number. -/
abbrev LoopM := Prog LoopCall fun _ => Except LoopErrno Nat

def sys (k : LoopCall) : LoopM (Except LoopErrno Nat) := Lib.Program.perform k

section Source

/-- `none` for -1, here and below. -/
def loopOpenControl : LoopM (Option Nat) := do
  match ← sys .access with
  | .ok _ => return (← sys .openControl).toOption
  | .error e =>
    if e ≠ .enoent ∧ e ≠ .eacces then return none
    match ← sys .modprobe with
    | .error _ => return none
    | .ok _ => return (← sys .openControl).toOption

def loopControlAlloc : LoopM (Option Nat) := do
  match ← loopOpenControl with
  | none => return none
  | some fd =>
    match ← sys (.getFree fd) with
    | .ok id =>
      let _ ← sys (.close fd)
      return some id
    | .error e =>
      if e ≠ .enospc then
        match ← sys (.add fd) with
        | .ok id =>
          let _ ← sys (.close fd)
          return some id
        | .error _ =>
          let _ ← sys (.close fd)
          return none
      else
        let _ ← sys (.close fd)
        return none

/-- The scan from device `n` on, with `left` devices to go. -/
def scanFrom : Nat → Nat → LoopM (Option Nat)
  | 0, _ => pure none
  | left + 1, n => do
    match ← sys (.openDev n) with
    | .error _ => scanFrom left (n + 1)
    | .ok fd =>
      let stat ← sys (.getStat fd)
      let _ ← sys (.close fd)
      if stat = .error .enxio then return some n
      scanFrom left (n + 1)

def scanLoopDevices : LoopM (Option Nat) := scanFrom 256 0

def findFreeLoop : LoopM (Option Nat) := do
  match ← loopControlAlloc with
  | some id => return some id
  | none => scanLoopDevices

def loopSetAutoclear (dev : Nat) : LoopM (Except LoopErrno Nat) := do
  let r ← sys (.setStatus64 dev)
  match r with
  | .ok _ => return r
  | .error _ =>
    let _ ← sys (.clrFd dev)
    return r

/-- What it leaves in `dev`, and the descriptor. -/
def ioLoop (devsz : Nat) (file : CStr) : LoopM (Option (CStr × Nat)) := do
  match ← findFreeLoop with
  | none => return none
  | some id =>
    let dev := truncated devsz (lit "/dev/loop" ++ intStr id)
    match ← sys (.openRw file) with
    | .error _ => return none
    | .ok img =>
      match ← sys (.openDev id) with
      | .error _ =>
        let _ ← sys (.close img)
        return none
      | .ok fd =>
        let err ← sys (.setFd fd img)
        let _ ← sys (.close img)
        match err with
        | .error _ =>
          let _ ← sys (.close fd)
          return none
        | .ok _ =>
          match ← loopSetAutoclear fd with
          | .error _ =>
            let _ ← sys (.close fd)
            return none
          | .ok _ => return some (dev, fd)

end Source

section Kernel

inductive Opened where
  | control
  | device (n : Nat)
  | file (path : CStr)
  deriving DecidableEq, Repr

/-- A file at a device. It is `own` if this run has attached it. -/
structure Backing where
  path : CStr
  autoclear : Bool
  own : Bool

structure Loops where
  fds : Nat → Option Opened
  devs : Nat → Option Backing
  /-- The run has detached or configured a file of somebody else. -/
  harmed : Bool

variable (s u : Loops)

/-- What others do, and the kernel: they attach and detach files of their own, and what
detaches itself goes when nobody has it open. -/
structure Others : Prop where
  fds : u.fds = s.fds
  harmed : u.harmed = s.harmed
  devs : ∀ n, u.devs n = s.devs n ∨
    (∀ b, s.devs n = some b →
      b.own = true → b.autoclear = true ∧ ∀ fd, s.fds fd ≠ some (.device n)) ∧
    ∀ b, u.devs n = some b → b.own = false

/-- The calls that open something. -/
def LoopCall.opens : LoopCall → Option Opened
  | .openControl => some .control
  | .openDev n => some (.device n)
  | .openRw path => some (.file path)
  | _ => none

def Loops.opening (fd : Nat) (x : Opened) : Loops := { s with fds := update s.fds fd (some x) }

/-- What a call answers and leaves. What a query answers may be out of date at once, so
nothing is said of it. -/
def Leaves : LoopCall → Except LoopErrno Nat → Loops → Prop
  | .setFd dev img, .ok _, t => ∃ n path, s.fds dev = some (.device n) ∧
      s.fds img = some (.file path) ∧ s.devs n = none ∧
      t = { s with devs := update s.devs n (some ⟨path, false, true⟩) }
  | .setStatus64 dev, .ok _, t => ∃ n b, s.fds dev = some (.device n) ∧ s.devs n = some b ∧
      t = { s with
        devs := update s.devs n (some { b with autoclear := true })
        harmed := s.harmed || !b.own }
  -- somebody else may have the device open: then the file stays until he closes it
  | .clrFd dev, .ok _, t => ∃ n b left, s.fds dev = some (.device n) ∧ s.devs n = some b ∧
      (left = none ∨ left = some { b with autoclear := true }) ∧
      t = { s with devs := update s.devs n left, harmed := s.harmed || !b.own }
  | .clrFd dev, .error _, t => t = s ∧ ∀ n, s.fds dev = some (.device n) → s.devs n = none
  | .close fd, _, t => t = { s with fds := update s.fds fd none }
  | k, .ok fd, t => match k.opens with
    | some x => s.fds fd = none ∧ t = s.opening fd x
    | none => t = s
  | _, .error _, t => t = s

def May (k : LoopCall) (s : Loops) (r : Except LoopErrno Nat) (t : Loops) : Prop :=
  ∃ u, Others s u ∧ Leaves u k r t

end Kernel

section Rest

variable {f : Nat → Option Opened} {s t u : Loops}

/-- A file of the run's own stands only at devices that let it go by themselves. -/
def Loose (s : Loops) : Prop := ∀ n b, s.devs n = some b → b.own = true → b.autoclear = true

/-- Between the calls of the source: `f` is open, and nobody has been harmed. -/
structure Rest (f : Nat → Option Opened) (s : Loops) : Prop where
  fds : s.fds = f
  harmed : s.harmed = false
  loose : Loose s

theorem Others.loose (h : Others s u) (hs : Loose s) : Loose u := by
  intro n b hb hown
  rcases h.devs n with hsame | ⟨-, hnot⟩
  · exact hs n b (hsame ▸ hb) hown
  · rw [hnot b hb] at hown
    cases hown

theorem Others.rest (h : Others s u) (hs : Rest f s) : Rest f u :=
  ⟨h.fds.trans hs.fds, h.harmed.trans hs.harmed, h.loose hs.loose⟩

/-- A query. -/
theorem quiet_rest {k : LoopCall} (hk : ∀ u r t, Leaves u k r t → t = u) :
    Ensures May (Rest f) (sys k) fun _ => Rest f :=
  Ensures.call fun s r t hs hmay => by
    obtain ⟨u, hothers, hleaves⟩ := hmay
    rw [hk u r t hleaves]
    exact hothers.rest hs

/-- `x` has been opened, if anything has. -/
def Got (f : Nat → Option Opened) (x : Opened) (r : Option Nat) (s : Loops) : Prop :=
  match r with
  | none => Rest f s
  | some fd => f fd = none ∧ Rest (update f fd (some x)) s

theorem open_got {k : LoopCall} {x : Opened} (hk : k.opens = some x) :
    Ensures May (Rest f) (sys k) fun r => Got f x r.toOption :=
  Ensures.call fun s r t hs hmay => by
    obtain ⟨u, hothers, hleaves⟩ := hmay
    have hrest := hothers.rest hs
    cases r with
    | error e =>
      have ht : t = u := by cases k <;> first | exact hleaves | cases hk
      rw [ht]
      exact hrest
    | ok fd =>
      have ht : u.fds fd = none ∧ t = u.opening fd x := by
        cases k <;> cases hk <;> exact hleaves
      obtain ⟨hfree, rfl⟩ := ht
      rw [hrest.fds] at hfree
      refine ⟨hfree, ?_, hrest.harmed, hrest.loose⟩
      show update u.fds fd (some x) = _
      rw [hrest.fds]

theorem close_rest {fd : Nat} {x : Option Opened} (hfree : f fd = none) :
    Ensures May (Rest (update f fd x)) (sys (.close fd)) fun _ => Rest f :=
  Ensures.call fun s r t hs hmay => by
    obtain ⟨u, hothers, rfl⟩ := hmay
    have hrest := hothers.rest hs
    refine ⟨?_, hrest.harmed, hrest.loose⟩
    show update u.fds fd none = f
    rw [hrest.fds, Function.update_idem, ← hfree, Function.update_eq_self]

theorem loopOpenControl_got : Ensures May (Rest f) loopOpenControl (Got f .control) := by
  have hopen : Ensures May (Rest f) (do return (← sys .openControl).toOption) (Got f .control) :=
    Ensures.bind (open_got rfl) fun r => Ensures.pure fun s hs => hs
  refine Ensures.bind (quiet_rest fun u r t h => by cases r <;> exact h) fun r => ?_
  cases r with
  | ok a => exact hopen
  | error e =>
    refine Ensures.ite (fun _ => Ensures.pure fun s hs => hs) fun _ => ?_
    refine Ensures.bind (quiet_rest fun u r t h => by cases r <;> exact h) fun r => ?_
    cases r with
    | error e => exact Ensures.pure fun s hs => hs
    | ok a => exact hopen

/-- The descriptor of the control device is closed on every path. -/
theorem loopControlAlloc_rest : Ensures May (Rest f) loopControlAlloc fun _ => Rest f := by
  refine Ensures.bind loopOpenControl_got fun ctl => ?_
  cases ctl with
  | none => exact Ensures.pure fun s hs => hs
  | some fd =>
    refine Ensures.given fun hfree => ?_
    have hclose (r : Option Nat) : Ensures May (Rest (update f fd (some .control)))
        (do let _ ← sys (.close fd); return r) fun _ => Rest f :=
      Ensures.bind (close_rest hfree) fun _ => Ensures.pure fun s hs => hs
    refine Ensures.bind (quiet_rest fun u r t h => by cases r <;> exact h) fun r => ?_
    cases r with
    | ok id => exact hclose (some id)
    | error e =>
      refine Ensures.ite (fun _ => ?_) fun _ => hclose none
      refine Ensures.bind (quiet_rest fun u r t h => by cases r <;> exact h) fun r => ?_
      cases r with
      | ok id => exact hclose (some id)
      | error e => exact hclose none

theorem scanFrom_rest (left n : Nat) : Ensures May (Rest f) (scanFrom left n) fun _ => Rest f := by
  induction left generalizing n with
  | zero => exact Ensures.pure fun s hs => hs
  | succ left ih =>
    refine Ensures.bind (open_got rfl) fun r => ?_
    cases r with
    | error e => exact ih (n + 1)
    | ok fd =>
      refine Ensures.given fun hfree => ?_
      refine Ensures.bind (quiet_rest fun u r t h => by cases r <;> exact h) fun r => ?_
      refine Ensures.bind (close_rest hfree) fun _ => ?_
      exact Ensures.ite (fun _ => Ensures.pure fun s hs => hs) fun _ => ih (n + 1)

theorem findFreeLoop_rest : Ensures May (Rest f) findFreeLoop fun _ => Rest f := by
  refine Ensures.bind loopControlAlloc_rest fun r => ?_
  cases r with
  | some id => exact Ensures.pure fun s hs => hs
  | none => exact scanFrom_rest 256 0

end Rest

section Attach

variable {f : Nat → Option Opened} {s u : Loops} {fd img n : Nat} {b : Backing}

/-- Device `n` is open as `fd` and has the file. -/
structure Held (f : Nat → Option Opened) (fd n : Nat) (b : Backing) (s : Loops) : Prop where
  fds : s.fds = update f fd (some (.device n))
  harmed : s.harmed = false
  backing : s.devs n = some b
  loose : ∀ m, m ≠ n → ∀ a, s.devs m = some a → a.own = true → a.autoclear = true

/-- What is open stays as it is. -/
theorem Others.held (h : Others s u) (hs : Held f fd n b s) (hown : b.own = true) :
    Held f fd n b u := by
  have hopen : s.fds fd = some (.device n) := by rw [hs.fds, Function.update_self]
  refine ⟨h.fds.trans hs.fds, h.harmed.trans hs.harmed, ?_, fun m hm a ha hmine => ?_⟩
  · rcases h.devs n with hsame | ⟨hgone, -⟩
    · rw [hsame, hs.backing]
    · exact absurd hopen ((hgone b hs.backing hown).2 fd)
  · rcases h.devs m with hsame | ⟨-, hnot⟩
    · exact hs.loose m hm a (hsame ▸ ha) hmine
    · rw [hnot a ha] at hmine
      cases hmine

/-- The file is at the device if the call has succeeded. -/
def Attached (f : Nat → Option Opened) (fd n : Nat) (b : Backing) (r : Except LoopErrno Nat)
    (s : Loops) : Prop :=
  match r with
  | .error _ => Rest (update f fd (some (.device n))) s
  | .ok _ => Held f fd n b s

theorem setFd_attached {path : CStr}
    (himg : update f fd (some (.device n)) img = some (.file path)) :
    Ensures May (Rest (update f fd (some (.device n)))) (sys (.setFd fd img))
      (Attached f fd n ⟨path, false, true⟩) :=
  Ensures.call fun s r t hs hmay => by
    obtain ⟨u, hothers, hleaves⟩ := hmay
    have hrest := hothers.rest hs
    cases r with
    | error e =>
      have ht : t = u := hleaves
      rw [ht]
      exact hrest
    | ok a =>
      obtain ⟨n', path', hdev, hfile, hnone, rfl⟩ := hleaves
      rw [hrest.fds, Function.update_self] at hdev
      rw [hrest.fds, himg] at hfile
      cases hdev
      cases hfile
      refine ⟨hrest.fds, hrest.harmed, Function.update_self .., fun m hm a ha => ?_⟩
      have ha : update u.devs n (some ⟨path, false, true⟩) m = some a := ha
      rw [Function.update_of_ne hm] at ha
      exact hrest.loose m a ha

theorem close_under {x y : Option Opened} (hfree : f img = none) (hne : fd ≠ img) :
    update (update (update f img x) fd y) img none = update f fd y := by
  rw [Function.update_comm hne, Function.update_idem, ← hfree, Function.update_eq_self]

theorem close_attached {x : Option Opened} {r : Except LoopErrno Nat} (hfree : f img = none)
    (hne : fd ≠ img) (hown : b.own = true) :
    Ensures May (Attached (update f img x) fd n b r) (sys (.close img)) fun _ =>
      Attached f fd n b r :=
  Ensures.call fun s _ t hs hmay => by
    obtain ⟨u, hothers, rfl⟩ := hmay
    cases r with
    | error e =>
      have hrest := hothers.rest hs
      refine ⟨?_, hrest.harmed, hrest.loose⟩
      show update u.fds img none = _
      rw [hrest.fds, close_under hfree hne]
    | ok a =>
      have hheld := hothers.held hs hown
      refine ⟨?_, hheld.harmed, hheld.backing, hheld.loose⟩
      show update u.fds img none = _
      rw [hheld.fds, close_under hfree hne]

theorem setStatus64_held {path : CStr} :
    Ensures May (Held f fd n ⟨path, false, true⟩) (sys (.setStatus64 fd)) fun r =>
      Held f fd n ⟨path, r.isOk, true⟩ :=
  Ensures.call fun s r t hs hmay => by
    obtain ⟨u, hothers, hleaves⟩ := hmay
    have hheld := hothers.held hs rfl
    cases r with
    | error e =>
      have ht : t = u := hleaves
      rw [ht]
      exact hheld
    | ok a =>
      obtain ⟨n', b, hdev, hb, rfl⟩ := hleaves
      rw [hheld.fds, Function.update_self] at hdev
      cases hdev
      rw [hheld.backing] at hb
      cases hb
      refine ⟨hheld.fds, ?_, Function.update_self .., fun m hm a ha => ?_⟩
      · show (u.harmed || !true) = false
        rw [hheld.harmed]
        rfl
      · have ha : update u.devs n (some ⟨path, true, true⟩) m = some a := ha
        rw [Function.update_of_ne hm] at ha
        exact hheld.loose m hm a ha

theorem clrFd_rest {path : CStr} :
    Ensures May (Held f fd n ⟨path, false, true⟩) (sys (.clrFd fd)) fun _ =>
      Rest (update f fd (some (.device n))) :=
  Ensures.call fun s r t hs hmay => by
    obtain ⟨u, hothers, hleaves⟩ := hmay
    have hheld := hothers.held hs rfl
    have hdev : u.fds fd = some (.device n) := by rw [hheld.fds, Function.update_self]
    cases r with
    | error e =>
      have hnone := hleaves.2 n hdev
      rw [hheld.backing] at hnone
      cases hnone
    | ok a =>
      obtain ⟨n', b, left, hdev', hb, hleft, rfl⟩ := hleaves
      rw [hdev] at hdev'
      cases hdev'
      rw [hheld.backing] at hb
      cases hb
      refine ⟨hheld.fds, ?_, fun m a ha hown => ?_⟩
      · show (u.harmed || !true) = false
        rw [hheld.harmed]
        rfl
      · have ha : update u.devs n left m = some a := ha
        by_cases hm : m = n
        · rw [hm, Function.update_self] at ha
          rcases hleft with rfl | rfl
          · cases ha
          · cases ha
            rfl
        · rw [Function.update_of_ne hm] at ha
          exact hheld.loose m hm a ha hown

theorem loopSetAutoclear_attached {path : CStr} :
    Ensures May (Held f fd n ⟨path, false, true⟩) (loopSetAutoclear fd)
      (Attached f fd n ⟨path, true, true⟩) := by
  refine Ensures.bind setStatus64_held fun r => ?_
  cases r with
  | ok a => exact Ensures.pure fun s hs => hs
  | error e => exact Ensures.bind clrFd_rest fun _ => Ensures.pure fun s hs => hs

/-- Whatever others do to the devices meanwhile: if `io_loop` fails, it has closed all it has
opened, and no file stays at a device for good. If it succeeds, the device it names has the
file and is all that is left open. What others have attached is never detached. -/
theorem ioLoop_takes (f : Nat → Option Opened) (devsz : Nat) (file : CStr) :
    Ensures May (Rest f) (ioLoop devsz file) fun r s =>
      match r with
      | none => Rest f s
      | some (dev, fd) => f fd = none ∧
          ∃ n : Nat, dev = truncated devsz (lit "/dev/loop" ++ intStr n) ∧
            Held f fd n ⟨file, true, true⟩ s := by
  refine Ensures.bind findFreeLoop_rest fun r => ?_
  cases r with
  | none => exact Ensures.pure fun s hs => hs
  | some id =>
    refine Ensures.bind (open_got rfl) fun r => ?_
    cases r with
    | error e => exact Ensures.pure fun s hs => hs
    | ok img =>
      refine Ensures.given fun himg => ?_
      refine Ensures.bind (open_got rfl) fun r => ?_
      cases r with
      | error e => exact Ensures.bind (close_rest himg) fun _ => Ensures.pure fun s hs => hs
      | ok fd =>
        refine Ensures.given fun hfd => ?_
        have hne : fd ≠ img := by
          rintro rfl
          rw [Function.update_self] at hfd
          cases hfd
        have hfree : f fd = none := by rwa [Function.update_of_ne hne] at hfd
        have hfile : update (update f img (some (.file file))) fd (some (.device id)) img =
            some (.file file) := by rw [Function.update_of_ne hne.symm, Function.update_self]
        refine Ensures.bind (setFd_attached hfile) fun err => ?_
        refine Ensures.bind (close_attached himg hne rfl) fun _ => ?_
        cases err with
        | error e => exact Ensures.bind (close_rest hfree) fun _ => Ensures.pure fun s hs => hs
        | ok a =>
          refine Ensures.bind loopSetAutoclear_attached fun r => ?_
          cases r with
          | error e => exact Ensures.bind (close_rest hfree) fun _ => Ensures.pure fun s hs => hs
          | ok a => exact Ensures.pure fun s hs => ⟨hfree, id, rfl, hs⟩

end Attach

end Cage.Sandbox.LoopDevice
