import Cage.Net.Writer

/-!
A netlink socket and the functions of `src/net/netlink.c` and `src/net/rtnl.c` that
talk to the kernel over it. Each request is answered at once, by datagrams that
wait in the queue of the socket.
-/

namespace Cage.Net

open Util

/-- Why a function does not return. -/
inductive Halt where
  /-- a receive from a socket that nothing will arrive at any more -/
  | blocked
  | fault (f : Fault)
  deriving DecidableEq, Repr

/-- What the kernel does, in the order in which it is asked to. -/
structure Kernel where
  /-- whether a system call succeeds -/
  works : Nat → Bool
  /-- the error code that acknowledges a request -/
  code : Nat → Int
  /-- the datagrams that answer a request to list the links -/
  dump : Nat → List Bytes

structure Sock where
  calls : Nat
  queue : List Bytes
  dumps : Nat
  /-- the requests so far with their error codes, without those for a list -/
  acked : List (Bytes × Int)

def Sock.fresh : Sock := { calls := 0, queue := [], dumps := 0, acked := [] }

abbrev NetM := StateT Sock (Except Halt)

def parse {A : Type} (r : Rd A) : NetM A :=
  match r with
  | .ok a => pure a
  | .error f => throw (.fault f)

def rtmGetlink : Nat := 18

/-- `nlmsg_type` of a request. -/
def msgType (req : Bytes) : Nat := (req.getD 4 0).toNat + 256 * (req.getD 5 0).toNat

/-- An `int` as it stands in memory. -/
def leInt (n : Int) : Bytes := le32 (n % 2 ^ 32).toNat

/-- The message that acknowledges a request: the error code and its header. -/
def ackMsg (req : Bytes) (code : Int) : Bytes :=
  le32 36 ++ le16 nlmsgError ++ le16 0 ++ le32 1 ++ le32 0 ++ leInt code ++ (req ++ List.replicate 16 0).take 16

/-- The kernel answers a request. -/
def Sock.answer (κ : Kernel) (req : Bytes) (s : Sock) : Sock :=
  if msgType req = rtmGetlink then
    { s with queue := s.queue ++ κ.dump s.dumps, dumps := s.dumps + 1 }
  else
    let code := κ.code s.acked.length
    { s with queue := s.queue ++ [ackMsg req code], acked := s.acked ++ [(req, code)] }

/-- A system call has been made; whether it succeeds. -/
def sysCall (κ : Kernel) : NetM Bool := do
  let s ← get
  set { s with calls := s.calls + 1 }
  pure (κ.works s.calls)

def sysNetlinkOpen (κ : Kernel) : NetM Int := do
  if ← sysCall κ then pure 0 else pure (-1)

def sysNetlinkSend (κ : Kernel) (req : Bytes) : NetM Int := do
  if ← sysCall κ then
    modify (·.answer κ req)
    pure 0
  else pure (-1)

/-- `sys_netlink_recv`. What does not fit of a datagram is lost. -/
def sysNetlinkRecv (κ : Kernel) (cap : Nat) : NetM (Option Bytes) := do
  if ← sysCall κ then
    let s ← get
    match s.queue with
    | [] => throw .blocked
    | d :: queue => do
        set { s with queue := queue }
        pure (some (d.take cap))
  else pure none

/-- The loop of `netlink_recv_dump`. Every round takes a datagram off the queue. -/
def recvDumpLoop (κ : Kernel) (cap : Nat) : Nat → Bytes → NetM (Option Bytes)
  | 0, _ => throw .blocked
  | rounds + 1, got =>
      if got.length ≥ cap then pure (some got)
      else do
        match ← sysNetlinkRecv κ (cap - got.length) with
        | none => pure none
        | some [] => pure (some got)
        | some d => do
            let done ← parse (nlHasDone (d.length + 1) d)
            if done then pure (some (got ++ d)) else recvDumpLoop κ cap rounds (got ++ d)

def sysNetlinkRecvDump (κ : Kernel) (cap : Nat) : NetM (Option Bytes) := do
  let s ← get
  recvDumpLoop κ cap (s.queue.length + 1) []

def nlmFRequest : Nat := 1
def nlmFAck : Nat := 4
def nlmFExcl : Nat := 0x200
def nlmFDump : Nat := 0x300
def nlmFCreate : Nat := 0x400

/-- `NLMSG_SPACE(sizeof(struct rtgenmsg))`. -/
def netlinkRequestLen : Nat := 20

/-- `netlink_request_fill` on zeroed bytes. -/
def netlinkRequestFill (len type flags : Nat) (family : UInt8) : Bytes :=
  le32 len ++ le16 type ++ le16 (nlmFRequest ||| flags) ++ le32 1 ++ le32 0 ++ [family, 0, 0, 0]

def netlinkFillDumpLink (cap : Nat) : Option Bytes :=
  if netlinkRequestLen > cap then none
  else some (netlinkRequestFill netlinkRequestLen rtmGetlink nlmFDump 0)

/-- The size of the buffers for a list of links. -/
def dumpCap : Nat := 16384

/-- `dump_all`, and what `netlink_dump_find_ifname` does before it looks for the
name. -/
def dumpAll (κ : Kernel) (cap : Nat) : NetM (Option Bytes) := do
  match netlinkFillDumpLink cap with
  | none => pure none
  | some req => do
      if (← sysNetlinkSend κ req) < 0 then pure none else sysNetlinkRecvDump κ cap

def netlinkDumpFindIfname (κ : Kernel) (name : CStr) : NetM (Option Nat) := do
  match ← dumpAll κ dumpCap with
  | none => pure none
  | some d => parse (netlinkFindIfname (d.length + 1) d name)

def netlinkAllocVethId (κ : Kernel) (pre : CStr) : NetM (Option Nat) := do
  match ← dumpAll κ dumpCap with
  | none => pure none
  | some d => parse (netlinkLowestFreeVethId (d.length + 1) d pre)

/-- `netlink_ack_result`. -/
def netlinkAckResult (ack : Bytes) : Rd Int :=
  if ack.length < nlmsgHdrLen then pure (-1)
  else do
    match ← nlmsgOk ack 0 ack.length with
    | none => pure (-1)
    | some len => do
        let type ← rd16 ack 4
        if type ≠ nlmsgError then pure 0
        else if len < nlmsgHdrLen + 20 then pure (-1)
        else do
          let error ← rd32 ack 16
          pure (if error = 0 then 0 else -1)

def sysNetlinkSendAck (κ : Kernel) (req : Bytes) : NetM Int := do
  if (← sysNetlinkSend κ req) < 0 then pure (-1)
  else
    match ← sysNetlinkRecv κ 4096 with
    | none => pure (-1)
    | some ack => parse (netlinkAckResult ack)

end Cage.Net
