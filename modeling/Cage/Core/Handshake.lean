import Cage.Lib.Runs

/-!
The two futexes of a first run, from the fork of the child on: `spawn_exec` of
`src/core/cage.c` against `run_mount_inner` of `src/sandbox/nssetup.c` with
`do_child_net` and `child_root_ready` of `src/core/child.c`. One action is one look at a
futex word, one store or one system call; a call fails if its flag is false. A child
whose call fails exits, and it may be killed anywhere.
-/

namespace Cage.Core.Handshake

open Lib.Runs

inductive Flag where
  | net
  | root
  deriving DecidableEq, Repr

/-- Where `wait_flag` is: at its look at the word, at `waitid` or at `futex_wait`. -/
inductive Poll where
  | look
  | peek
  | sleep
  deriving DecidableEq, Repr

/-- The requests of `parent_nl_cmds`. -/
inductive HostCmd where
  | veth
  | addr
  | up
  | addr6
  deriving DecidableEq, Repr

/-- The next step of the parent. -/
inductive Parent where
  /-- the first look of `net_ready` -/
  | checking
  | polling (f : Flag) (at_ : Poll)
  /-- `open` of `/proc/child/ns/net` -/
  | opening
  /-- `sys_netlink_open` -/
  | connecting
  | linking (c : HostCmd)
  /-- `*net_futex = 2` -/
  | storing
  /-- `futex_wake` of the child -/
  | waking
  /-- `remove_root`, the root being ready -/
  | removing
  /-- `pidwait` -/
  | reaping
  /-- `remove_root` at the end of `finish_child` -/
  | cleaning
  | ended
  deriving DecidableEq, Repr

/-- The next step of the child. -/
inductive Child where
  /-- `mount_ns_setup` -/
  | unsharing
  /-- `prepare_overlay`, which mounts the overlay at the temporary root -/
  | overlaying
  /-- `*net_futex = 1` -/
  | netStoring
  /-- `futex_wake` of the parent -/
  | netWaking
  /-- `*net_futex != 2` -/
  | netChecking
  /-- `futex_wait`, the kernel's look at the word -/
  | netWaiting
  | netAsleep
  /-- `net_setup_child` -/
  | configuring
  /-- `do_child_setup` -/
  | mounting
  /-- `chdir` in `move_and_chroot` -/
  | entering
  /-- `mount` with `MS_MOVE` -/
  | moving
  | chrooting
  /-- `*root_futex = 1` -/
  | rootStoring
  /-- `futex_wake` of the parent -/
  | rootWaking
  /-- what is left, up to the end of the command -/
  | running
  deriving DecidableEq, Repr

structure Sys where
  /-- `-N` was given. -/
  net : Bool
  /-- `SIGCHLD` is ignored: a child that ends leaves no zombie. -/
  reaped : Bool
  netWord : Nat
  rootWord : Nat
  parent : Parent
  child : Child
  alive : Bool
  /-- The child has a network namespace of its own. -/
  ownNet : Bool
  /-- Whether the namespace that the parent has opened is the child's own. -/
  nsfd : Option Bool
  /-- The requests that the parent has made, with its descriptor at the time. -/
  sent : List (HostCmd × Option Bool)
  /-- The overlay has left the temporary root. -/
  moved : Bool
  /-- The temporary root is there. -/
  rootDir : Bool
  /-- `st->root` is set. -/
  owned : Bool
  deriving DecidableEq, Repr

def Sys.word (s : Sys) : Flag → Nat
  | .net => s.netWord
  | .root => s.rootWord

/-- Where the parent goes on once the word is set. -/
def readyNext : Flag → Parent
  | .net => .opening
  | .root => .removing

/-- Where it goes on when the child has ended before. -/
def deadNext : Flag → Parent
  | .net => .polling .root .look
  | .root => .reaping

def HostCmd.next : HostCmd → Parent
  | .veth => .linking .addr
  | .addr => .linking .up
  | .up => .linking .addr6
  | .addr6 => .storing

inductive Act where
  | parent (ok : Bool)
  | child (ok : Bool)
  /-- A signal ends the child's `futex_wait`. -/
  | interrupt
  deriving DecidableEq, Repr

/-- A child that is asleep on the word goes on. -/
def Sys.wake (s : Sys) : Child := if s.child = .netAsleep ∧ s.alive then .configuring else s.child

def Sys.parentStep (s : Sys) (ok : Bool) : Option Sys :=
  match s.parent with
  | .checking =>
      some { s with parent := if s.netWord = 1 then .opening else .polling .net .look }
  | .polling f .look =>
      some { s with parent := if s.word f = 1 then readyNext f else .polling f .peek }
  | .polling f .peek =>
      some { s with
        parent := if s.alive = false ∧ s.reaped = false then deadNext f else .polling f .sleep }
  | .polling f .sleep => some { s with parent := .polling f .look }
  | .opening =>
      if ok ∧ s.alive then
        some { s with nsfd := some s.ownNet, parent := .connecting }
      else
        some { s with parent := .storing }
  | .connecting => some { s with parent := if ok then .linking .veth else .storing }
  | .linking c =>
      -- without the pair of links there is nothing to configure
      some { s with
        sent := s.sent ++ [(c, s.nsfd)]
        parent := if c = .veth ∧ ok = false then .storing else c.next }
  | .storing => some { s with netWord := 2, parent := .waking }
  | .waking => some { s with child := s.wake, parent := .polling .root .look }
  | .removing =>
      some { s with rootDir := s.rootDir && !ok, owned := false, parent := .reaping }
  | .reaping =>
      -- a `waitpid` that fails is not tried again
      if s.alive = false ∨ ok = false then some { s with parent := .cleaning } else none
  | .cleaning =>
      some { s with
        rootDir := s.rootDir && !(s.owned && ok)
        owned := false
        parent := .ended }
  | .ended => none

def Sys.childStep (s : Sys) (ok : Bool) : Option Sys :=
  if s.alive = false then
    none
  else if ok then
    match s.child with
    | .unsharing => some { s with ownNet := s.net, child := .overlaying }
    | .overlaying =>
        if s.rootDir then some { s with child := if s.net then .netStoring else .mounting } else none
    | .netStoring => some { s with netWord := 1, child := .netWaking }
    | .netWaking => some { s with child := .netChecking }
    | .netChecking => some { s with child := if s.netWord = 2 then .configuring else .netWaiting }
    | .netWaiting => some { s with child := if s.netWord = 1 then .netAsleep else .configuring }
    | .netAsleep => none
    | .configuring => some { s with child := .mounting }
    | .mounting => some { s with child := .entering }
    | .entering => some { s with child := .moving }
    | .moving => some { s with moved := true, child := .chrooting }
    | .chrooting => some { s with child := .rootStoring }
    | .rootStoring => some { s with rootWord := 1, child := .rootWaking }
    | .rootWaking => some { s with child := .running }
    | .running => some { s with alive := false }
  else
    some { s with alive := false }

def step (s : Sys) : Act → Option Sys
  | .parent ok => s.parentStep ok
  | .child ok => s.childStep ok
  | .interrupt =>
      if s.child = .netAsleep ∧ s.alive then some { s with child := .configuring } else none

/-- The parent has just forked the child. -/
def initial (net reaped : Bool) : Sys where
  net := net
  reaped := reaped
  netWord := 0
  rootWord := 0
  parent := if net then .checking else .polling .root .look
  child := .unsharing
  alive := true
  ownNet := false
  nsfd := none
  sent := []
  moved := false
  rootDir := true
  owned := true

/-- The parent still has to do its side of the network. -/
def Parent.OnHost : Parent → Prop
  | .checking | .polling .net _ | .opening | .connecting | .linking _ | .storing => True
  | _ => False

/-- The child is past its wait for the parent's side. -/
def Child.Past : Child → Prop
  | .configuring | .mounting | .entering | .moving | .chrooting | .rootStoring | .rootWaking
  | .running => True
  | _ => False

/-- No signal ends the child's wait. -/
def Undisturbed (_ : Sys) : Act → Prop
  | .interrupt => False
  | _ => True

instance (s : Sys) : (a : Act) → Decidable (Undisturbed s a)
  | .interrupt => .isFalse id
  | .parent _ | .child _ => .isTrue trivial

/-- The parent works on the child's own namespace only, it takes the temporary root away
only from a child that has left it or has ended, and a child that sleeps will be woken. -/
structure Safe (s : Sys) : Prop where
  own : ∀ c ns, (c, ns) ∈ s.sent → ns = some true
  root : s.rootDir = false → s.moved = true ∨ s.alive = false
  woken : s.child = .netAsleep → s.alive = true → s.parent.OnHost ∨ s.parent = .waking

/-- Every call does its work. -/
def Smooth (_ : Sys) : Act → Prop
  | .parent ok | .child ok => ok = true
  | .interrupt => False

/-- The child ended before it had entered its root, nothing tells of it, and the parent
waits for the root. -/
def Trapped (s : Sys) : Prop :=
  s.reaped = true ∧ s.alive = false ∧ s.rootWord = 0 ∧
    (s.parent.OnHost ∨ s.parent = .waking ∨ ∃ at_, s.parent = .polling .root at_)

end Cage.Core.Handshake
