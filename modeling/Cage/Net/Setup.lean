import Cage.Net.DumpRead

/-!
`src/net/net.c`: the requests that set up the network of the sandbox, filled in by
the functions of `src/net/rtnl.c`.
-/

namespace Cage.Net

open Util

def afUnspec : UInt8 := 0
def afInet : UInt8 := 2
def afInet6 : UInt8 := 10
def rtmNewaddr : Nat := 20
def rtmNewroute : Nat := 24
def iffUp : Nat := 1
def ifaAddress : Int := 1
def ifaLocal : Int := 2
def ifaBroadcast : Int := 4
def ifaFNodad : UInt8 := 2
def rtaOif : Int := 4
def rtaGateway : Int := 5
def rtTableMain : UInt8 := 254
def rtprotBoot : UInt8 := 3
def rtScopeUniverse : UInt8 := 0
def rtnUnicast : UInt8 := 1

/-- `htonl`. -/
def htonl (v : UInt32) : UInt32 :=
  (v <<< (24 : UInt32)) ||| ((v &&& (0xff00 : UInt32)) <<< (8 : UInt32)) |||
    ((v >>> (8 : UInt32)) &&& (0xff00 : UInt32)) ||| (v >>> (24 : UInt32))

/-- A zeroed buffer with the header of a request, up to `nlmsg_seq`. -/
def fillHdr (type flags : Nat) : Mem :=
  let mem := putBytes (fun _ => 0) 4 (le16 type)
  let mem := putBytes mem 6 (le16 flags)
  putBytes mem 8 (le32 1)

/-- A request is complete: its length is written. -/
def finish (r : Int × Writer) : Int × Mem :=
  if r.1 < 0 then (-1, r.2.mem) else (0, putBytes r.2.mem 0 (le32 r.2.off))

/-- `fill_addr_hdr`, with `ifa_flags`. -/
def fillAddrHdr (ifindex plen : Nat) (family flags : UInt8) : Mem :=
  let mem := fillHdr rtmNewaddr (nlmFRequest ||| nlmFCreate ||| nlmFExcl ||| nlmFAck)
  let mem := putBytes mem 16 [family, UInt8.ofNat plen, flags]
  putBytes mem 20 (le32 ifindex)

def fillAddrAttrs (cap : Nat) (plen : Int) (addr : UInt32) (w : Writer) : Int × Writer :=
  let r := netlinkPutU32 cap ifaLocal (htonl addr) w
  if r.1 < 0 then (-1, r.2)
  else if plen ≤ 0 ∨ plen ≥ 31 then (0, r.2)
  else
    let nm := htonl ((1 <<< (32 - UInt32.ofInt plen)) - 1)
    netlinkPutU32 cap ifaBroadcast (htonl addr ||| nm) r.2

def netlinkFillAddr (cap ifindex plen : Nat) (addr : UInt32) : Int × Mem :=
  finish (fillAddrAttrs cap plen addr ⟨fillAddrHdr ifindex plen afInet 0, 24⟩)

def netlinkFillAddr6 (cap ifindex plen : Nat) (addr : Bytes) : Int × Mem :=
  finish (netlinkPutAttr cap ⟨UInt16.ofInt ifaAddress, addr⟩
    ⟨fillAddrHdr ifindex plen afInet6 ifaFNodad, 24⟩)

def netlinkFillUp (ifindex : Nat) : Int × Mem :=
  let mem := fillHdr rtmNewlink (nlmFRequest ||| nlmFAck)
  let mem := putBytes mem 16 [afUnspec]
  let mem := putBytes mem 28 (le32 iffUp)
  let mem := putBytes mem 20 (le32 ifindex)
  let mem := putBytes mem 24 (le32 iffUp)
  finish (0, ⟨mem, 32⟩)

def fillRouteHdr (family : UInt8) : Mem :=
  let mem := fillHdr rtmNewroute (nlmFRequest ||| nlmFCreate ||| nlmFExcl ||| nlmFAck)
  let mem := putBytes mem 16 [family]
  putBytes mem 20 [rtTableMain, rtprotBoot, rtScopeUniverse, rtnUnicast]

def fillRouteAttrs (cap oif : Nat) (gw : UInt32) (w : Writer) : Int × Writer :=
  let r := netlinkPutU32 cap rtaGateway (htonl gw) w
  if r.1 < 0 then (-1, r.2) else netlinkPutU32 cap rtaOif (UInt32.ofNat oif) r.2

def netlinkFillDefaultRoute (cap oif : Nat) (gw : UInt32) : Int × Mem :=
  finish (fillRouteAttrs cap oif gw ⟨fillRouteHdr afInet, 28⟩)

def netlinkFillDefaultRoute6 (cap oif : Nat) (gw : Bytes) : Int × Mem :=
  let r := netlinkPutAttr cap ⟨UInt16.ofInt rtaGateway, gw⟩ ⟨fillRouteHdr afInet6, 28⟩
  if r.1 < 0 then (-1, r.2.mem) else finish (netlinkPutU32 cap rtaOif (UInt32.ofNat oif) r.2)

/-- `nlmsg_len` in a buffer. -/
def nlmsgLenAt (mem : Mem) : Nat :=
  (mem 0).toNat + 256 * (mem 1).toNat + 65536 * (mem 2).toNat + 16777216 * (mem 3).toNat

/-- The bytes that are sent of a buffer with a request. -/
def request (mem : Mem) : Bytes := span mem 0 (nlmsgLenAt mem)

def nlTransact (κ : Kernel) (cap : Nat) (filled : Int × Mem) : NetM Int := do
  if filled.1 < 0 then pure (-1)
  else if (← sysNetlinkSend κ (request filled.2)) < 0 then pure (-1)
  else
    match ← sysNetlinkRecv κ cap with
    | none => pure (-1)
    | some _ => pure 0

/-- `NET_IP4` of the subnet of the links, with the last byte. -/
def netIp4 (d : UInt32) : UInt32 :=
  ((172 : UInt32) <<< (24 : UInt32)) ||| ((24 : UInt32) <<< (16 : UInt32)) |||
    ((0 : UInt32) <<< (8 : UInt32)) ||| d

def netHostIp (id : Nat) : UInt32 := netIp4 (UInt32.ofNat (id * 2 + 1))

def netCageIp (id : Nat) : UInt32 := netIp4 (UInt32.ofNat (id * 2))

def net6Prefixlen : Nat := 127

/-- `net6_addr`, with the bytes of the address. -/
def net6Addr (id : Nat) (hostEnd : Bool) : Bytes :=
  [0xfd, 0xca, 0x00, 0x6e] ++ List.replicate 11 0 ++
    [UInt8.ofNat (id * 2 + if hostEnd then 1 else 0)]

/-- The size of the buffers for one request. -/
def requestCap : Nat := 128

def addrAdd (κ : Kernel) (ifindex : Nat) (addr : UInt32) : NetM Int :=
  nlTransact κ requestCap (netlinkFillAddr requestCap ifindex 31 addr)

def defaultRouteAdd (κ : Kernel) (ifindex : Nat) (gw : UInt32) : NetM Int :=
  nlTransact κ requestCap (netlinkFillDefaultRoute requestCap ifindex gw)

def linkUp (κ : Kernel) (ifindex : Nat) : NetM Int :=
  nlTransact κ requestCap (netlinkFillUp ifindex)

def setupLoopback (κ : Kernel) : NetM Int := do
  match ← netlinkDumpFindIfname κ (lit "lo") with
  | none => pure (-1)
  | some ifindex => linkUp κ ifindex

def addr6Add (κ : Kernel) (ifindex id : Nat) (hostEnd : Bool) : NetM Int :=
  nlTransact κ requestCap (netlinkFillAddr6 requestCap ifindex net6Prefixlen (net6Addr id hostEnd))

def defaultRoute6Add (κ : Kernel) (ifindex id : Nat) : NetM Int :=
  nlTransact κ requestCap (netlinkFillDefaultRoute6 requestCap ifindex (net6Addr id true))

def configChildV4 (κ : Kernel) (id ifindex : Nat) : NetM Int := do
  if (← addrAdd κ ifindex (netCageIp id)) < 0 then pure (-1)
  else if (← linkUp κ ifindex) < 0 then pure (-1)
  else defaultRouteAdd κ ifindex (netHostIp id)

/-- `config_child_v6`, which may fail. -/
def configChildV6 (κ : Kernel) (id ifindex : Nat) : NetM Unit := do
  if (← addr6Add κ ifindex id false) = 0 then
    let _ ← defaultRoute6Add κ ifindex id

def configChildLink (κ : Kernel) (id : Nat) : NetM Int := do
  match ← netlinkDumpFindIfname κ (lit "eth0") with
  | none => pure (-1)
  | some ifindex => do
      if (← configChildV4 κ id ifindex) < 0 then pure (-1)
      else do
        configChildV6 κ id ifindex
        pure 0

def netSetupChild (κ : Kernel) (id : Nat) : NetM Int := do
  if (← sysNetlinkOpen κ) < 0 then pure (-1)
  else if (← configChildLink κ id) < 0 then pure (-1)
  else if (← setupLoopback κ) < 0 then pure (-1)
  else pure 0

end Cage.Net
