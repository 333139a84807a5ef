import Cage.Net.Nft
import Cage.Net.SetupAcks

/-!
The request of `src/net/rtnl.c` that makes the pair of links of a sandbox. The peer and
its namespace stand three levels deep in it, and the peer has a header of its own.
-/

namespace Cage.Net

open Util

def iflaLinkinfo : Int := 18
def iflaNetNsFd : Int := 28
def iflaInfoKind : Int := 1
def iflaInfoData : Int := 2
def vethInfoPeer : Int := 1

/-- `sizeof(struct ifinfomsg)`. -/
def ifinfomsgLen : Nat := 16

def putIfinfomsgZero (cap : Nat) (w : Writer) : Option Writer :=
  if w.off + ifinfomsgLen > cap then none
  else some ⟨putBytes w.mem w.off (List.replicate ifinfomsgLen 0), w.off + ifinfomsgLen⟩

/-- The calls it makes return 0 or -1. -/
def fillVethPeer (cap : Nat) (peer : CStr) (nsfd : UInt32) (w : Writer) : Option Writer := do
  let (w, vp) ← checkedStart (netlinkNestStart cap (vethInfoPeer + nlaFNested) w 0)
  let w ← putIfinfomsgZero cap w
  let w ← checked (netlinkPutString cap iflaIfname peer w)
  let w ← checked (netlinkPutU32 cap iflaNetNsFd nsfd w)
  some (netlinkNestEnd vp w)

def fillVethLinkinfo (cap : Nat) (peer : CStr) (nsfd : UInt32) (w : Writer) : Option Writer := do
  let (w, li) ← checkedStart (netlinkNestStart cap (iflaLinkinfo + nlaFNested) w 0)
  let w ← checked (netlinkPutString cap iflaInfoKind (lit "veth") w)
  let (w, id) ← checkedStart (netlinkNestStart cap (iflaInfoData + nlaFNested) w 0)
  let w ← fillVethPeer cap peer nsfd w
  some (netlinkNestEnd li (netlinkNestEnd id w))

def createVethFlags : Nat := nlmFRequest ||| nlmFCreate ||| nlmFExcl ||| nlmFAck

/-- The zeroed buffer with its header, and with that of `fill_ifinfomsg`. -/
def createVethHdr : Mem :=
  let mem := fillHdr rtmNewlink createVethFlags
  let mem := putBytes mem 16 [afUnspec]
  putBytes mem 28 (le32 0xffffffff)

def netlinkFillCreateVeth (cap : Nat) (host peer : CStr) (nsfd : UInt32) : Option Mem := do
  let w : Writer := ⟨createVethHdr, nlmsgHdrLen + ifinfomsgLen⟩
  let w ← checked (netlinkPutString cap iflaIfname host w)
  let w ← fillVethLinkinfo cap peer nsfd w
  some (putBytes w.mem 0 (le32 w.off))

section Laid

variable {cap : Nat} {bs bs' : Bytes} {w w₁ w' : Writer}

/-- The bytes have been laid down from `w.off` on; the rest is as it was, up to the
length in the header. -/
structure Laid (cap : Nat) (bs : Bytes) (w w' : Writer) : Prop where
  off : w'.off = w.off + bs.length
  inside : w'.off ≤ cap
  span : span w'.mem w.off bs.length = bs
  keeps : ∀ i, 4 ≤ i → i < w.off ∨ w'.off ≤ i → w'.mem i = w.mem i

theorem Written.laid {tree : Tree} (h : Written cap 4 tree w w') : Laid cap tree.bytes w w' :=
  ⟨h.off, h.inside, h.span, h.keeps⟩

theorem Laid.trans (hoff : 4 ≤ w.off) (h : Laid cap bs w w₁) (h' : Laid cap bs' w₁ w') :
    Laid cap (bs ++ bs') w w' := by
  have hoff₁ := h.off
  have hoff' := h'.off
  refine ⟨?_, h'.inside, ?_, fun i hi hout => ?_⟩
  · rw [List.length_append]
    omega
  · rw [List.length_append, span_add, ← hoff₁, h'.span,
      span_congr fun i hi hlt => h'.keeps i (by omega) (Or.inl (by omega)), h.span]
  · rw [h'.keeps i hi (by omega), h.keeps i hi (by omega)]

theorem Laid.nest {type : Int} (hcap : cap ≤ 65535) (hoff : 4 ≤ w.off)
    (h : Laid cap bs (w.started type) w₁) :
    Laid cap (le16 (4 + bs.length) ++ (le16 (UInt16.ofInt type).toNat ++ bs)) w
      (netlinkNestEnd w.off w₁) := by
  have hoff₁ : w₁.off = w.off + 4 + bs.length := h.off
  have hinside := h.inside
  have hend : netlinkNestEnd w.off w₁ = ⟨putBytes w₁.mem w.off (le16 (4 + bs.length)), w₁.off⟩ := by
    unfold netlinkNestEnd
    rw [Nat.mod_eq_of_lt (by omega), hoff₁, Nat.add_assoc, Nat.add_sub_cancel_left]
  have hlength : (le16 (4 + bs.length) ++ (le16 (UInt16.ofInt type).toNat ++ bs)).length =
      2 + (2 + bs.length) := by
    rw [List.length_append, List.length_append, le16_length, le16_length]
  have hlen : Net.span (putBytes w₁.mem w.off (le16 (4 + bs.length))) w.off 2 =
      le16 (4 + bs.length) := span_putBytes_self _ _ (le16 _)
  have htype : Net.span w₁.mem (w.off + 2) 2 = le16 (UInt16.ofInt type).toNat := by
    rw [span_congr fun i hi hlt => h.keeps i (by omega) (Or.inl (by show i < w.off + 4; omega))]
    exact span_putBytes_self _ _ (le16 _)
  have hbody : Net.span w₁.mem (w.off + 2 + 2) bs.length = bs := h.span
  rw [hend]
  refine ⟨?_, hinside, ?_, fun i hi hout => ?_⟩
  · rw [hlength]
    dsimp only
    omega
  · rw [hlength, span_add, span_add, hlen,
      span_putBytes_of_disjoint _ (Or.inr (by rw [le16_length])),
      span_putBytes_of_disjoint _ (Or.inr (by rw [le16_length]; omega)), htype, hbody]
  · dsimp only at hout ⊢
    rw [putBytes_outside _ (by rw [le16_length]; omega),
      h.keeps i hi (by show i < w.off + 4 ∨ _; omega)]
    exact putBytes_outside _ (by rw [le16_length]; omega)

/-- Where there is room for `bs` behind the zeroed rest of the buffer, `f` lays it down,
and fails where there is none. -/
def Fills (cap : Nat) (f : Writer → Option Writer) (bs : Bytes) : Prop :=
  ∀ w : Writer, 4 ≤ w.off → w.off ≤ cap → (∀ i, w.off ≤ i → i < cap → w.mem i = 0) →
    (w.off + bs.length ≤ cap → ∃ w', f w = some w' ∧ Laid cap bs w w') ∧
      (¬w.off + bs.length ≤ cap → f w = none)

variable {f g : Writer → Option Writer}

theorem Fills.put (hcap : cap ≤ 65535) (call : Put) :
    Fills cap (fun w => checked (call.call cap w))
      (Tree.leaf call.asked.type call.asked.data .nil).bytes := by
  intro w hoff hle hzero
  have hlow : call.low ≤ 4 := by
    cases call with
    | string => exact Nat.le_refl 4
    | attr | u32 => exact Nat.zero_le 4
  have hpad := le_nlaAlign (4 + call.asked.data.length)
  have hnil : Tree.nil.bytes.length = 0 := rfl
  rw [Tree.leaf_length, hnil, Nat.add_zero]
  refine ⟨fun hfit => ?_, fun hfit => ?_⟩
  · obtain ⟨mem, hcall, hspan, hkeep⟩ := call.call_fits ⟨by omega, hfit⟩ (by omega)
    have hnone := Written.none (w := ⟨mem, w.off + nlaAlign (4 + call.asked.data.length)⟩) hfit 4
    refine ⟨_, ?_, (Written.put hzero hlow hoff hspan hkeep hnone).laid⟩
    dsimp only
    rw [hcall]
    rfl
  · have hfails : ¬call.Fits cap w.off → call.call cap w = (-1, w) := call.call_fails
    dsimp only
    rw [hfails fun hfits => hfit hfits.2]
    rfl

theorem Fills.zeros : Fills cap (putIfinfomsgZero cap) (List.replicate ifinfomsgLen 0) := by
  intro w hoff hle hzero
  have hlen : (List.replicate ifinfomsgLen (0 : UInt8)).length = ifinfomsgLen :=
    List.length_replicate
  rw [hlen]
  unfold putIfinfomsgZero
  refine ⟨fun hfit => ?_, fun hfit => if_pos (Nat.lt_of_not_le hfit)⟩
  refine ⟨_, if_neg (Nat.not_lt.mpr hfit), by rw [hlen], hfit, ?_, fun i _ hout => ?_⟩
  · exact span_putBytes_self _ _ _
  · exact putBytes_outside _ (by rw [hlen]; exact hout)

theorem Fills.seq (hf : Fills cap f bs) (hg : Fills cap g bs') :
    Fills cap (fun w => f w >>= g) (bs ++ bs') := by
  intro w hoff hle hzero
  obtain ⟨hfits, hfails⟩ := hf w hoff hle hzero
  rw [List.length_append]
  by_cases hfit : w.off + bs.length ≤ cap
  · obtain ⟨w₁, hrun, hlaid⟩ := hfits hfit
    have hoff₁ := hlaid.off
    obtain ⟨hgfits, hgfails⟩ := hg w₁ (by omega) hlaid.inside fun i hi hlt => by
      rw [hlaid.keeps i (by omega) (Or.inr hi)]
      exact hzero i (by omega) hlt
    dsimp only
    rw [hrun]
    refine ⟨fun hall => ?_, fun hall => hgfails (by omega)⟩
    obtain ⟨w', hrun', hlaid'⟩ := hgfits (by omega)
    exact ⟨w', hrun', hlaid.trans hoff hlaid'⟩
  · refine ⟨fun hall => absurd hall (by omega), fun _ => ?_⟩
    dsimp only
    rw [hfails hfit]
    rfl

/-- A nest around what `f` lays down. -/
theorem Fills.nest (type : Int) (hcap : cap ≤ 65535) (hf : Fills cap f bs) :
    Fills cap (fun w => do
      let (w, start) ← checkedStart (netlinkNestStart cap type w 0)
      let w ← f w
      some (netlinkNestEnd start w))
      (le16 (4 + bs.length) ++ (le16 (UInt16.ofInt type).toNat ++ bs)) := by
  intro w hoff hle hzero
  have hlength : (le16 (4 + bs.length) ++ (le16 (UInt16.ofInt type).toNat ++ bs)).length =
      4 + bs.length := by
    rw [List.length_append, List.length_append, le16_length, le16_length]
    omega
  rw [hlength]
  dsimp only
  by_cases hfit : w.off + 4 ≤ cap
  · have hstart : checkedStart (netlinkNestStart cap type w 0) = some (w.started type, w.off) := by
      rw [nestStart_fits type 0 hfit]
      rfl
    have hstarted : ∀ i, w.off + 4 ≤ i → (w.started type).mem i = w.mem i :=
      fun i hi => putBytes_outside _ (by rw [le16_length]; omega)
    obtain ⟨hfits, hfails⟩ := hf (w.started type) (by show 4 ≤ w.off + 4; omega) hfit
      fun i hi hlt => by
        rw [hstarted i hi]
        exact hzero i (by have hi : w.off + 4 ≤ i := hi; omega) hlt
    have hoff' : (w.started type).off = w.off + 4 := rfl
    rw [hstart]
    refine ⟨fun hall => ?_, fun hall => ?_⟩
    · obtain ⟨w₁, hrun, hlaid⟩ := hfits (by omega)
      refine ⟨netlinkNestEnd w.off w₁, ?_, hlaid.nest hcap hoff⟩
      show (f (w.started type) >>= fun w₁ => some (netlinkNestEnd w.off w₁)) = _
      rw [hrun]
      rfl
    · show (f (w.started type) >>= fun w₁ => some (netlinkNestEnd w.off w₁)) = _
      rw [hfails (by omega)]
      rfl
  · refine ⟨fun hall => absurd hall (by omega), fun _ => ?_⟩
    rw [nestStart_fails type 0 hfit]
    rfl

end Laid

section Request

variable {cap : Nat} {host peer : CStr} {nsfd : UInt32}

/-- The attributes of the peer. -/
def vethPeerTree (peer : CStr) (nsfd : UInt32) : Tree :=
  .leaf (UInt16.ofInt iflaIfname) (withNul peer)
    (.leaf (UInt16.ofInt iflaNetNsFd) (le32 nsfd.toNat) .nil)

/-- What the peer is to be: a header without any wish, and attributes. -/
def vethPeer (peer : CStr) (nsfd : UInt32) : Bytes :=
  List.replicate ifinfomsgLen 0 ++ (vethPeerTree peer nsfd).bytes

def linkinfoTree (peer : CStr) (nsfd : UInt32) : Tree :=
  .nest (UInt16.ofInt (iflaLinkinfo + nlaFNested))
    (.leaf (UInt16.ofInt iflaInfoKind) (withNul (lit "veth"))
      (.nest (UInt16.ofInt (iflaInfoData + nlaFNested))
        (.leaf (UInt16.ofInt (vethInfoPeer + nlaFNested)) (vethPeer peer nsfd) .nil) .nil)) .nil

/-- The attributes of the request. -/
def vethTree (host peer : CStr) (nsfd : UInt32) : Tree :=
  .leaf (UInt16.ofInt iflaIfname) (withNul host) (linkinfoTree peer nsfd)

theorem leaf_append (type : UInt16) (payload : Bytes) (rest : Tree) :
    (Tree.leaf type payload .nil).bytes ++ rest.bytes = (Tree.leaf type payload rest).bytes := by
  simp only [Tree.bytes, List.append_assoc, List.nil_append]

theorem nest_bytes (type : UInt16) (inner : Tree) :
    le16 (4 + inner.bytes.length) ++ (le16 type.toNat ++ inner.bytes) =
      (Tree.nest type inner .nil).bytes := by
  simp only [Tree.bytes, List.append_nil]

/-- What is as long as attributes are needs no padding. -/
theorem leaf_bytes (type : UInt16) {payload : Bytes} (h : payload.length % 4 = 0) :
    le16 (4 + payload.length) ++ (le16 type.toNat ++ payload) =
      (Tree.leaf type payload .nil).bytes := by
  have hpad : nlaAlign (4 + payload.length) - (4 + payload.length) = 0 := by
    unfold nlaAlign
    omega
  simp only [Tree.bytes, hpad, List.replicate_zero, List.append_nil]

theorem vethPeer_aligned (peer : CStr) (nsfd : UInt32) : (vethPeer peer nsfd).length % 4 = 0 := by
  have hattrs := (vethPeerTree peer nsfd).aligned
  rw [vethPeer, List.length_append, List.length_replicate, ifinfomsgLen]
  omega

theorem fillVethPeer_fills (hcap : cap ≤ 65535) : Fills cap (fillVethPeer cap peer nsfd)
    (Tree.leaf (UInt16.ofInt (vethInfoPeer + nlaFNested)) (vethPeer peer nsfd) .nil).bytes := by
  have hzeros : Fills cap (putIfinfomsgZero cap) _ := Fills.zeros
  have hattrs := hzeros.seq ((Fills.put hcap (.string iflaIfname peer)).seq
    (Fills.put hcap (.u32 iflaNetNsFd nsfd)))
  have hfills := Fills.nest (vethInfoPeer + nlaFNested) hcap hattrs
  rw [leaf_append] at hfills
  simp only [bind_assoc] at hfills
  rw [← leaf_bytes _ (vethPeer_aligned peer nsfd)]
  exact hfills

theorem fillVethLinkinfo_fills (hcap : cap ≤ 65535) :
    Fills cap (fillVethLinkinfo cap peer nsfd) (linkinfoTree peer nsfd).bytes := by
  have hpeer : Fills cap (fillVethPeer cap peer nsfd) _ := fillVethPeer_fills hcap
  have hdata := Fills.nest (iflaInfoData + nlaFNested) hcap hpeer
  rw [nest_bytes] at hdata
  have hfills := Fills.nest (iflaLinkinfo + nlaFNested) hcap
    ((Fills.put hcap (.string iflaInfoKind (lit "veth"))).seq hdata)
  rw [leaf_append, nest_bytes] at hfills
  simp only [bind_assoc] at hfills
  exact hfills

/-- The attributes of the peer stand inside those of the request. -/
theorem vethPeer_le (host peer : CStr) (nsfd : UInt32) :
    (vethPeerTree peer nsfd).bytes.length ≤ (vethTree host peer nsfd).bytes.length := by
  have hpeer : (vethPeer peer nsfd).length =
      ifinfomsgLen + (vethPeerTree peer nsfd).bytes.length := by
    rw [vethPeer, List.length_append, List.length_replicate]
  have hpad := le_nlaAlign (4 + (vethPeer peer nsfd).length)
  simp only [vethTree, linkinfoTree, Tree.leaf_length, Tree.nest_length]
  omega

/-- The header of the request, as it is sent. -/
def vethHeader (len : Nat) : Bytes :=
  nlmsghdr len rtmNewlink createVethFlags 1 0 ++ (List.replicate 12 0 ++ le32 0xffffffff)

theorem span_createVethHdr (mem : Mem) (len : Nat)
    (h : ∀ i, 4 ≤ i → i < 32 → mem i = createVethHdr i) :
    span (putBytes mem 0 (le32 len)) 0 32 = vethHeader len := by
  have hlen : span (putBytes mem 0 (le32 len)) 0 4 = le32 len := span_putBytes_self _ _ (le32 len)
  have hrest : span (putBytes mem 0 (le32 len)) 4 28 = span createVethHdr 4 28 := by
    rw [span_putBytes_of_disjoint _ (Or.inr (Nat.le_refl 4))]
    exact span_congr fun i hi hlt => h i hi hlt
  have hhdr : span createVethHdr 4 28 = le16 rtmNewlink ++ (le16 createVethFlags ++
      (le32 1 ++ (le32 0 ++ (List.replicate 12 0 ++ le32 0xffffffff)))) := by decide
  have hsplit : span (putBytes mem 0 (le32 len)) 0 32 =
      span (putBytes mem 0 (le32 len)) 0 4 ++ span (putBytes mem 0 (le32 len)) 4 28 :=
    span_add _ 0 4 28
  rw [hsplit, hlen, hrest, hhdr]
  simp only [vethHeader, nlmsghdr, List.append_assoc]

/-- The request is made exactly if it fits into the buffer. What is sent is the header,
with the length, and the attributes, which a walk over them meets again; and so it does
those of the peer behind its own header. -/
theorem netlinkFillCreateVeth_exact (hlow : 32 ≤ cap) (hcap : cap ≤ 65535) (host peer : CStr)
    (nsfd : UInt32) :
    (¬32 + (vethTree host peer nsfd).bytes.length ≤ cap →
      netlinkFillCreateVeth cap host peer nsfd = none) ∧
    (32 + (vethTree host peer nsfd).bytes.length ≤ cap → ∃ mem,
      netlinkFillCreateVeth cap host peer nsfd = some mem ∧
      request mem = vethHeader (32 + (vethTree host peer nsfd).bytes.length) ++
        (vethTree host peer nsfd).bytes ∧
      Yields (request mem) 32 (vethTree host peer nsfd).bytes.length (vethTree host peer nsfd) ∧
      Yields (vethPeer peer nsfd) 16 (vethPeerTree peer nsfd).bytes.length
        (vethPeerTree peer nsfd)) := by
  have hlink : Fills cap (fillVethLinkinfo cap peer nsfd) _ := fillVethLinkinfo_fills hcap
  have hfills := (Fills.put hcap (.string iflaIfname host)).seq hlink
  have hzero : ∀ i, 32 ≤ i → i < cap → createVethHdr i = 0 := by
    intro i hi _
    have hout (mem : Mem) (off : Nat) (d : Bytes) (hd : off + d.length ≤ 32) :
        putBytes mem off d i = mem i := putBytes_outside _ (Or.inr (by omega))
    rw [createVethHdr, hout _ _ _ (by decide), hout _ _ _ (by decide), fillHdr,
      hout _ _ _ (by decide), hout _ _ _ (by decide), hout _ _ _ (by decide)]
  rw [leaf_append] at hfills
  obtain ⟨hfits, hfails⟩ := hfills ⟨createVethHdr, 32⟩ (by decide) hlow hzero
  have hcode : netlinkFillCreateVeth cap host peer nsfd =
      (checked ((Put.string iflaIfname host).call cap ⟨createVethHdr, 32⟩) >>=
        fillVethLinkinfo cap peer nsfd) >>= fun w => some (putBytes w.mem 0 (le32 w.off)) := by
    rw [bind_assoc]
    rfl
  refine ⟨fun hno => ?_, fun hfit => ?_⟩
  · have hnone := hfails hno
    dsimp only at hnone
    rw [hcode, hnone]
    rfl
  · obtain ⟨w', hrun, hlaid⟩ := hfits hfit
    dsimp only at hrun
    have hoff : w'.off = 32 + (vethTree host peer nsfd).bytes.length := hlaid.off
    have hinside := hlaid.inside
    have hsent : request (putBytes w'.mem 0 (le32 w'.off)) =
        vethHeader (32 + (vethTree host peer nsfd).bytes.length) ++
          (vethTree host peer nsfd).bytes := by
      have hattrs : span (putBytes w'.mem 0 (le32 w'.off)) (0 + 32)
          (vethTree host peer nsfd).bytes.length = (vethTree host peer nsfd).bytes := by
        have hhead : (le32 w'.off).length = 4 := rfl
        rw [span_putBytes_of_disjoint _ (Or.inr (by omega))]
        exact hlaid.span
      unfold request
      rw [nlmsgLenAt_le32 _ (by omega)]
      rw [hoff, span_add, ← hoff, hattrs, span_createVethHdr]
      exact fun i hi hlt => hlaid.keeps i hi (Or.inl hlt)
    refine ⟨putBytes w'.mem 0 (le32 w'.off), ?_, hsent, ?_, ?_⟩
    · rw [hcode, hrun]
      rfl
    · have hdrop : (request (putBytes w'.mem 0 (le32 w'.off))).drop 32 =
          (vethTree host peer nsfd).bytes ++ [] := by
        rw [hsent, List.append_nil]
        exact List.drop_left' rfl
      exact yields_of_bytes hdrop (by omega)
    · have hdrop : (vethPeer peer nsfd).drop 16 = (vethPeerTree peer nsfd).bytes ++ [] := by
        rw [vethPeer, List.append_nil]
        exact List.drop_left' rfl
      have hinner := vethPeer_le host peer nsfd
      exact yields_of_bytes hdrop (by omega)

theorem netlinkFillCreateVeth_exact_pair :
    (¬32 + (vethTree (lit "cage-h0") (lit "eth0") 7).bytes.length ≤ 256 →
      netlinkFillCreateVeth 256 (lit "cage-h0") (lit "eth0") 7 = none) ∧
    (32 + (vethTree (lit "cage-h0") (lit "eth0") 7).bytes.length ≤ 256 → ∃ mem,
      netlinkFillCreateVeth 256 (lit "cage-h0") (lit "eth0") 7 = some mem ∧
      request mem = vethHeader (32 + (vethTree (lit "cage-h0") (lit "eth0") 7).bytes.length) ++
        (vethTree (lit "cage-h0") (lit "eth0") 7).bytes ∧
      Yields (request mem) 32 (vethTree (lit "cage-h0") (lit "eth0") 7).bytes.length
        (vethTree (lit "cage-h0") (lit "eth0") 7) ∧
      Yields (vethPeer (lit "eth0") 7) 16 (vethPeerTree (lit "eth0") 7).bytes.length
        (vethPeerTree (lit "eth0") 7)) :=
  netlinkFillCreateVeth_exact (by decide) (by decide) _ _ _

end Request

end Cage.Net
