import Cage.Net.Setup
import Cage.Net.WriterFill

/-!
`src/net/nft.c`: the requests that make the NAT table of one family, sent to the kernel
as one batch, and what its answers say. The bytes that a batch has on the stack before it
is filled are `stack`.
-/

namespace Cage.Net

open Util

def nfnlMsgBatchBegin : Nat := 16
def nfnlMsgBatchEnd : Nat := 17
def nfnlSubsysNftables : Nat := 10
def nfnetlinkV0 : UInt8 := 0
def nftMsgNewtable : Nat := 0
def nftMsgNewchain : Nat := 3
def nftMsgNewrule : Nat := 6
def nftaTableName : Int := 1
def nftaChainTable : Int := 1
def nftaChainName : Int := 3
def nftaChainHook : Int := 4
def nftaChainType : Int := 7
def nftaHookHooknum : Int := 1
def nftaHookPriority : Int := 2
def nftaRuleTable : Int := 1
def nftaRuleChain : Int := 2
def nftaRuleExpressions : Int := 4
def nftaListElem : Int := 1
def nftaExprName : Int := 1
def nftaExprData : Int := 2
def nfInetPostRouting : UInt32 := 4
def nlaFNested : Int := 0x8000
def nlmFAppend : Nat := 0x800
def einval : Int := 22

def nftAckErrno (buf : Bytes) : Rd Int :=
  if buf.length < nlmsgHdrLen then pure (-einval)
  else do
    match ← nlmsgOk buf 0 buf.length with
    | none => pure (-einval)
    | some len => do
        let type ← rd16 buf 4
        if type ≠ nlmsgError then pure 0
        else if len < nlmsgHdrLen + 20 then pure (-einval)
        else do
          let error ← rd32 buf 16
          pure (intOfLong error)

/-- The size of the buffers for one answer. -/
def ackCap : Nat := 4096

/-- `nft_drain_rest`, with the answers that wait; the `n`-th receive works if `recvs n`. -/
def nftDrainRest (recvs : Nat → Bool) : Nat → List Bytes → Int → Rd Int
  | _, [], err => pure err
  | n, d :: queue, err =>
      if recvs n then do
        let e ← nftAckErrno (d.take ackCap)
        nftDrainRest recvs (n + 1) queue (if e ≠ 0 ∧ err = 0 then e else err)
      else pure err

def nftRecvAck (recvs : Nat → Bool) (queue : List Bytes) : Except Halt Int :=
  if recvs 0 then
    match queue with
    | [] => throw .blocked
    | d :: queue =>
        match nftAckErrno (d.take ackCap) >>= nftDrainRest recvs 1 queue with
        | .ok r => pure r
        | .error f => throw (.fault f)
  else pure (-1)

def nftPutBe32 (cap : Nat) (type : Int) (val : UInt32) (w : Writer) : Int × Writer :=
  netlinkPutU32 cap type (htonl val) w

def nftChainHook (cap : Nat) (w : Writer) : Option Writer := do
  let (w, hoff) ← checkedStart (netlinkNestStart cap (nftaChainHook + nlaFNested) w 0)
  let w ← checked (nftPutBe32 cap nftaHookHooknum nfInetPostRouting w)
  let w ← checked (nftPutBe32 cap nftaHookPriority 100 w)
  some (netlinkNestEnd hoff w)

def nftPutExprMasq (cap : Nat) (w : Writer) : Option Writer := do
  let (w, list) ← checkedStart (netlinkNestStart cap (nftaRuleExpressions + nlaFNested) w 0)
  let (w, elem) ← checkedStart (netlinkNestStart cap (nftaListElem + nlaFNested) w 0)
  let w ← checked (netlinkPutString cap nftaExprName (lit "masq") w)
  let (w, data) ← checkedStart (netlinkNestStart cap (nftaExprData + nlaFNested) w 0)
  some (netlinkNestEnd list (netlinkNestEnd elem (netlinkNestEnd data w)))

/-- `struct nft_batch`. -/
structure Batch where
  data : Mem
  len : Nat
  seq : Nat

/-- `sizeof(b->data)`. -/
def batchCap : Nat := 768

/-- `NLMSG_HDRLEN + sizeof(struct nfgenmsg)`. -/
def nfgenEnd : Nat := 20

/-- `struct nfgenmsg`, with the bytes of `res_id`. -/
def nfgenmsg (family : UInt8) (resId : Bytes) : Bytes := [family, nfnetlinkV0] ++ resId

/-- `htons(NFNL_SUBSYS_NFTABLES)`. -/
def nftResId : Bytes := [0, UInt8.ofNat nfnlSubsysNftables]

/-- The fields of a `struct nlmsghdr`, in their order in memory. -/
def nlmsghdr (len type flags seq pid : Nat) : Bytes := le32 len ++ le16 type ++ le16 flags ++ le32 seq ++ le32 pid

def nftBatchOpen (stack : Mem) : Batch where
  data := putBytes stack 0 (nlmsghdr nfgenEnd nfnlMsgBatchBegin (nlmFRequest ||| nlmFAck) 0 0 ++
    nfgenmsg afUnspec nftResId)
  len := nlmsgAlign nfgenEnd
  seq := 0

def nftBatchMsg (b : Batch) (type flags : Nat) (msg : Mem) (mlen : Nat) : Option Batch :=
  if b.len + nlmsgAlign mlen > batchCap then none
  else
    let msg := putBytes msg 0 (le32 mlen)
    let msg := putBytes msg 4 (le16 type)
    let msg := putBytes msg 6 (le16 (nlmFRequest ||| flags))
    let msg := putBytes msg 8 (le32 (b.seq + 1))
    some ⟨putBytes b.data b.len (span msg 0 mlen), b.len + nlmsgAlign mlen, b.seq + 1⟩

def nftBatchEnd (b : Batch) : Option Batch :=
  let elen := nlmsgAlign nfgenEnd
  if b.len + elen > batchCap then none
  else
    some ⟨putBytes b.data b.len (nlmsghdr nfgenEnd nfnlMsgBatchEnd nlmFRequest (b.seq + 1) 0 ++
      nfgenmsg 0 nftResId), b.len + elen, b.seq + 1⟩

def nftTableName : CStr := lit "cage-nat"
def nftChainName : CStr := lit "postrouting"

/-- `NFT_INIT`: a request without a header. -/
def nftInit (family : UInt8) : Writer := ⟨putBytes (fun _ => 0) 16 (nfgenmsg family [0, 0]), nfgenEnd⟩

/-- `nlmsg_type` of a request to nftables. -/
def nftType (msg : Nat) : Nat := nfnlSubsysNftables * 256 + msg

def nftCreateTable (b : Batch) (family : UInt8) : Option Batch := do
  let cap := nfgenEnd + 128
  let w ← checked (netlinkPutString cap nftaTableName nftTableName (nftInit family))
  nftBatchMsg b (nftType nftMsgNewtable) (nlmFCreate ||| nlmFExcl) w.mem w.off

def nftCreateChain (b : Batch) (family : UInt8) : Option Batch := do
  let cap := nfgenEnd + 256
  let w ← checked (netlinkPutString cap nftaChainTable nftTableName (nftInit family))
  let w ← checked (netlinkPutString cap nftaChainName nftChainName w)
  let w ← nftChainHook cap w
  let w ← checked (netlinkPutString cap nftaChainType (lit "nat") w)
  nftBatchMsg b (nftType nftMsgNewchain) nlmFCreate w.mem w.off

def nftAddMasqRule (b : Batch) (family : UInt8) : Option Batch := do
  let cap := nfgenEnd + 256
  let w ← checked (netlinkPutString cap nftaRuleTable nftTableName (nftInit family))
  let w ← checked (netlinkPutString cap nftaRuleChain nftChainName w)
  let w ← nftPutExprMasq cap w
  nftBatchMsg b (nftType nftMsgNewrule) (nlmFCreate ||| nlmFAppend) w.mem w.off

def nftBuild (b : Batch) (family : UInt8) : Option Batch := do
  let b ← nftCreateTable b family
  let b ← nftCreateChain b family
  nftAddMasqRule b family

/-- The nftables of the kernel: what a batch makes of them, and the answers to it. -/
structure Nftables (R : Type) where
  handle : R → Bytes → R × List Bytes

/-- What a set-up finds: which of its system calls work, and what is on its stack. -/
structure NftEnv where
  opens : Bool
  sends : Bool
  recvs : Nat → Bool
  stack : Mem

variable {R : Type}

def nftBatchFlush (κ : Nftables R) (e : NftEnv) (b : Batch) (r : R) : Except Halt (Int × R) :=
  match nftBatchEnd b with
  | none => pure (-1, r)
  | some b =>
      if e.sends then do
        let (r, queue) := κ.handle r (span b.data 0 b.len)
        let err ← nftRecvAck e.recvs queue
        pure (err, r)
      else pure (-1, r)

def nftSetupFamily (κ : Nftables R) (e : NftEnv) (family : UInt8) (r : R) : Except Halt (Int × R) :=
  if e.opens then
    match nftBuild (nftBatchOpen e.stack) family with
    | none => pure (-1, r)
    | some b => do
        let (err, r) ← nftBatchFlush κ e b r
        pure (if err = 0 ∨ err = -eexist then 0 else -1, r)
  else pure (-1, r)

def netSetupNat (κ : Nftables R) (e : NftEnv) (r : R) : Except Halt (Int × R) :=
  nftSetupFamily κ e afInet r

def netSetupNat6 (κ : Nftables R) (e : NftEnv) (r : R) : Except Halt (Int × R) :=
  nftSetupFamily κ e afInet6 r

end Cage.Net
