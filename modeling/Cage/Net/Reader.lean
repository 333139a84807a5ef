import Cage.Util.MemPath

/-!
The functions of `src/net/netlink.c`, `src/net/rtnl.c` and `src/net/veth.c` that
read what the kernel has sent. Every access to the buffer is checked: a read
beyond its end is a fault, where the program would read whatever stands there.
-/

namespace Cage.Net

open Util

inductive Fault where
  /-- a read beyond the end of the buffer -/
  | outside
  /-- the rounds of a loop are used up -/
  | rounds
  deriving DecidableEq, Repr

abbrev Rd := Except Fault

/-- The bytes of a buffer. -/
abbrev Bytes := List UInt8

def rd16 (data : Bytes) (i : Nat) : Rd Nat :=
  match data.drop i with
  | a :: b :: _ => .ok (a.toNat + 256 * b.toNat)
  | _ => .error .outside

def rd32 (data : Bytes) (i : Nat) : Rd Nat :=
  match data.drop i with
  | a :: b :: c :: d :: _ =>
      .ok (a.toNat + 256 * b.toNat + 65536 * c.toNat + 16777216 * d.toNat)
  | _ => .error .outside

def nlmsgHdrLen : Nat := 16
def nlmsgError : Nat := 2
def nlmsgDone : Nat := 3
def rtmNewlink : Nat := 16
def iflaIfname : Nat := 3

/-- `NLMSG_ALIGN` of a `uint32_t`. -/
def nlmsgAlign (len : Nat) : Nat := (len + 3) % 2 ^ 32 / 4 * 4

/-- `NLMSG_OK`, with `nlmsg_len`. -/
def nlmsgOk (data : Bytes) (off rem : Nat) : Rd (Option Nat) :=
  if rem < nlmsgHdrLen then pure none
  else do
    let len ← rd32 data off
    pure (if nlmsgHdrLen ≤ len ∧ len ≤ rem then some len else none)

/-- `NLMSG_NEXT` on the `size_t` of what remains. -/
def nlmsgNext (rem len : Nat) : Nat := (rem + 2 ^ 64 - nlmsgAlign len) % 2 ^ 64

/-- A loop over the messages. The body gives the new state and whether to leave
the loop. -/
def eachMsg {S : Type} (data : Bytes) (body : Nat → Nat → S → Rd (S × Bool)) :
    Nat → Nat → Nat → S → Rd S
  | 0, _, _, _ => .error .rounds
  | rounds + 1, off, rem, s => do
      let msg ← nlmsgOk data off rem
      match msg with
      | none => pure s
      | some len => do
          let r ← body off len s
          if r.2 then pure r.1
          else eachMsg data body rounds (off + nlmsgAlign len) (nlmsgNext rem len) r.1

/-- `NLA_ALIGN`. -/
def nlaAlign (len : Nat) : Nat := (len + 3) / 4 * 4

/-- `NLA_OK`, with `nla_len`. -/
def nlaOk (data : Bytes) (off : Nat) (alen : Int) : Rd (Option Nat) :=
  if alen < 4 then pure none
  else do
    let len ← rd16 data off
    pure (if 4 ≤ len ∧ (len : Int) ≤ alen then some len else none)

/-- A loop over attributes, like `eachMsg`. -/
def eachAttr {S : Type} (data : Bytes) (body : Nat → Nat → S → Rd (S × Bool)) :
    Nat → Nat → Int → S → Rd S
  | 0, _, _, _ => .error .rounds
  | rounds + 1, off, alen, s => do
      let attr ← nlaOk data off alen
      match attr with
      | none => pure s
      | some len => do
          let r ← body off len s
          if r.2 then pure r.1
          else eachAttr data body rounds (off + nlaAlign len) (alen - nlaAlign len) r.1

/-- `strcmp` of the bytes with a string gives 0. -/
def strcmpEq : CStr → Bytes → Rd Bool
  | _, [] => .error .outside
  | [], b :: _ => pure (b = 0)
  | c :: cs, b :: bs => if b = c then strcmpEq cs bs else pure false

/-- `strncmp` of the bytes with a string, over its length, gives 0. -/
def strncmpEqAt : CStr → Bytes → Rd Bool
  | [], _ => pure true
  | _ :: _, [] => .error .outside
  | c :: cs, b :: bs => if b = c then strncmpEqAt cs bs else pure false

/-- What `strtol` does not take: it reads the first byte of it. -/
def numberEnd (bytes : Bytes) : Bytes :=
  let t := bytes.dropWhile isSpace
  let digits := if t.head? = some 45 ∨ t.head? = some 43 then t.tail else t
  digits.dropWhile isDigit

def strtolAt (bytes : Bytes) : Rd (Int × Bytes) :=
  if numberEnd bytes = [] then .error .outside else pure (strtol bytes)

/-- The loop of `nl_has_done`. -/
def doneBody (data : Bytes) (off _ : Nat) (_ : Bool) : Rd (Bool × Bool) := do
  let type ← rd16 data (off + 4)
  pure (if type = nlmsgDone ∨ type = nlmsgError then (true, true) else (false, false))

/-- `nl_has_done`, at most that many times round its loop. -/
def nlHasDone (rounds : Nat) (data : Bytes) : Rd Bool :=
  eachMsg data (doneBody data) rounds 0 data.length false

def hasNameBody (data : Bytes) (name : CStr) (off _ : Nat) (_ : Bool) : Rd (Bool × Bool) := do
  let type ← rd16 data (off + 2)
  if type = iflaIfname then do
    let same ← strcmpEq name (data.drop (off + 4))
    pure (same, same)
  else pure (false, false)

/-- `link_has_name`. Every round takes something off `alen`. -/
def linkHasName (data : Bytes) (off : Nat) (alen : Int) (name : CStr) : Rd Bool :=
  eachAttr data (hasNameBody data name) (alen.toNat + 1) off alen false

/-- `(int)NLMSG_PAYLOAD(h, sizeof(struct ifinfomsg))`. -/
def linkPayload (len : Nat) : Int := intOfLong (len - 32)

def findBody (data : Bytes) (name : CStr) (off len : Nat) (_ : Option Nat) :
    Rd (Option Nat × Bool) := do
  let type ← rd16 data (off + 4)
  if type ≠ rtmNewlink then pure (none, false)
  else do
    let found ← linkHasName data (off + 32) (linkPayload len) name
    if found then do
      let index ← rd32 data (off + 20)
      pure (some index, true)
    else pure (none, false)

/-- `netlink_find_ifname`, with the bits of the index. -/
def netlinkFindIfname (rounds : Nat) (data : Bytes) (name : CStr) : Rd (Option Nat) :=
  eachMsg data (findBody data name) rounds 0 data.length none

def parseVethId (bytes : Bytes) (pre : CStr) : Rd Int := do
  let same ← strncmpEqAt pre bytes
  if same = false then pure (-1)
  else do
    let r ← strtolAt (bytes.drop pre.length)
    if r.2 = bytes.drop pre.length ∨ r.2.head? ≠ some 0 then pure (-1) else pure (intOfLong r.1)

/-- `CAGE_VETH_MAX_ID`. -/
def cageVethMaxId : Nat := 126

/-- The ids in use. -/
abbrev Used := Nat → Bool

def scanBody (data : Bytes) (pre : CStr) (off _ : Nat) (used : Used) : Rd (Used × Bool) := do
  let type ← rd16 data (off + 2)
  if type = iflaIfname then do
    let vid ← parseVethId (data.drop (off + 4)) pre
    if vid ≥ 0 ∧ vid ≤ cageVethMaxId then pure (Function.update used vid.toNat true, false)
    else pure (used, false)
  else pure (used, false)

def usedVethScanAttrs (data : Bytes) (off : Nat) (alen : Int) (pre : CStr) (used : Used) : Rd Used :=
  eachAttr data (scanBody data pre) (alen.toNat + 1) off alen used

def usedBody (data : Bytes) (pre : CStr) (off len : Nat) (used : Used) : Rd (Used × Bool) := do
  let type ← rd16 data (off + 4)
  if type ≠ rtmNewlink then pure (used, false)
  else do
    let used ← usedVethScanAttrs data (off + 32) (linkPayload len) pre used
    pure (used, false)

def vethScanUsed (rounds : Nat) (data : Bytes) (pre : CStr) (used : Used) : Rd Used :=
  eachMsg data (usedBody data pre) rounds 0 data.length used

def netlinkLowestFreeVethId (rounds : Nat) (data : Bytes) (pre : CStr) : Rd (Option Nat) := do
  let used ← vethScanUsed rounds data pre fun _ => false
  pure ((List.range (cageVethMaxId + 1)).find? fun i => !used i)

end Cage.Net
