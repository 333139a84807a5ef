import Cage.Net.Setup
import Cage.Net.DumpComplete

/-!
What the setup of the network makes of the kernel's acknowledgements. The requests
are sent and answered one by one, and the program takes each answer off the queue
without looking at it.
-/

namespace Cage.Net

open Util

section Requests

variable {cap off : Nat} {mem₀ : Mem}

/-- The request is filled in, and is none for a list. -/
structure Sendable (filled : Int × Mem) : Prop where
  ok : filled.1 = 0
  type : msgType (request filled.2) ≠ rtmGetlink

theorem nlmsgLenAt_le32 (mem : Mem) {len : Nat} (h : len < 2 ^ 32) :
    nlmsgLenAt (putBytes mem 0 (le32 len)) = len := by
  show (UInt8.ofNat len).toNat + 256 * (UInt8.ofNat (len / 256)).toNat +
    65536 * (UInt8.ofNat (len / 65536)).toNat +
    16777216 * (UInt8.ofNat (len / 65536 / 256)).toNat = len
  simp only [UInt8.toNat_ofNat']
  omega

theorem span_getD (mem : Mem) {len i : Nat} (h : i < len) : (span mem 0 len).getD i 0 = mem i := by
  simp [span, h]

theorem sendable_finish (type : Nat) (h4 : mem₀ 4 = UInt8.ofNat type) (h5 : mem₀ 5 = 0)
    (hoff : 16 ≤ off) (hlt : off < 2 ^ 32) (htype : type < 256) (hne : type ≠ rtmGetlink) :
    Sendable (finish (0, ⟨mem₀, off⟩)) where
  ok := rfl
  type := by
    have hlen : (le32 off).length = 4 := rfl
    have hfinish : (finish (0, ⟨mem₀, off⟩)).2 = putBytes mem₀ 0 (le32 off) := rfl
    have hout : ∀ i, 4 ≤ i → putBytes mem₀ 0 (le32 off) i = mem₀ i :=
      fun i hi => putBytes_outside _ (by omega)
    unfold msgType request
    rw [hfinish, nlmsgLenAt_le32 mem₀ hlt, span_getD _ (by omega), span_getD _ (by omega),
      hout 4 (by omega), hout 5 (by omega), h4, h5, UInt8.toNat_ofNat', Nat.mod_eq_of_lt htype]
    exact hne

/-- What an attribute of `n` bytes behind the header leaves. -/
theorem putAttr_keeps (mem₀ : Mem) (off : Nat) (attr : NlAttr) {n : Nat} (hlen : attr.data.length = n) (hn : n ≤ 65531)
    (h : off + nlaAlign (4 + n) ≤ cap) :
    ∃ mem, netlinkPutAttr cap attr ⟨mem₀, off⟩ = (0, ⟨mem, off + nlaAlign (4 + n)⟩) ∧
      ∀ i, i < off → mem i = mem₀ i := by
  subst hlen
  obtain ⟨mem, hrun, -, hkeep⟩ := putAttr_fits (w := ⟨mem₀, off⟩) attr (by omega) h
  exact ⟨mem, hrun, fun i hi => hkeep i (Or.inl hi)⟩

theorem putU32_keeps (mem₀ : Mem) (off : Nat) (type : Int) (val : UInt32) (h : off + 8 ≤ cap) :
    ∃ mem, netlinkPutU32 cap type val ⟨mem₀, off⟩ = (0, ⟨mem, off + 8⟩) ∧
      ∀ i, i < off → mem i = mem₀ i :=
  putAttr_keeps mem₀ off _ (n := 4) rfl (by decide) h

theorem sendable_addr (ifindex : Nat) (addr : UInt32) :
    Sendable (netlinkFillAddr requestCap ifindex 31 addr) := by
  have hcap : 24 + 8 ≤ requestCap := by decide
  obtain ⟨mem, hrun, hkeep⟩ := putU32_keeps (fillAddrHdr ifindex 31 afInet 0) 24 ifaLocal
    (htonl addr) hcap
  have hattrs : fillAddrAttrs requestCap 31 addr ⟨fillAddrHdr ifindex 31 afInet 0, 24⟩ =
      (0, ⟨mem, 32⟩) := by
    unfold fillAddrAttrs
    rw [hrun]
    rfl
  unfold netlinkFillAddr
  rw [show ((31 : Nat) : Int) = 31 from rfl, hattrs]
  exact sendable_finish rtmNewaddr (hkeep 4 (by decide)) (hkeep 5 (by decide))
    (by decide) (by decide) (by decide) (by decide)

theorem sendable_up (ifindex : Nat) : Sendable (netlinkFillUp ifindex) :=
  sendable_finish rtmNewlink rfl rfl (by decide) (by decide) (by decide) (by decide)

theorem sendable_route (oif : Nat) (gw : UInt32) :
    Sendable (netlinkFillDefaultRoute requestCap oif gw) := by
  have hcap : 28 + 8 ≤ requestCap := by decide
  have hcap' : 36 + 8 ≤ requestCap := by decide
  obtain ⟨mem, hrun, hkeep⟩ := putU32_keeps (fillRouteHdr afInet) 28 rtaGateway (htonl gw) hcap
  obtain ⟨mem', hrun', hkeep'⟩ := putU32_keeps mem 36 rtaOif (UInt32.ofNat oif) hcap'
  have hattrs : fillRouteAttrs requestCap oif gw ⟨fillRouteHdr afInet, 28⟩ = (0, ⟨mem', 44⟩) := by
    unfold fillRouteAttrs
    rw [hrun]
    exact hrun'
  unfold netlinkFillDefaultRoute
  rw [hattrs]
  exact sendable_finish rtmNewroute ((hkeep' 4 (by decide)).trans (hkeep 4 (by decide)))
    ((hkeep' 5 (by decide)).trans (hkeep 5 (by decide))) (by decide) (by decide) (by decide)
    (by decide)

theorem net6Addr_length (id : Nat) (hostEnd : Bool) : (net6Addr id hostEnd).length = 16 := rfl

theorem sendable_addr6 (ifindex id : Nat) (hostEnd : Bool) :
    Sendable (netlinkFillAddr6 requestCap ifindex net6Prefixlen (net6Addr id hostEnd)) := by
  have hcap : 24 + nlaAlign (4 + 16) ≤ requestCap := by decide
  obtain ⟨mem, hrun, hkeep⟩ := putAttr_keeps
    (fillAddrHdr ifindex net6Prefixlen afInet6 ifaFNodad) 24
    ⟨UInt16.ofInt ifaAddress, net6Addr id hostEnd⟩ (net6Addr_length id hostEnd) (by decide) hcap
  unfold netlinkFillAddr6
  rw [hrun]
  exact sendable_finish rtmNewaddr (hkeep 4 (by decide)) (hkeep 5 (by decide))
    (by decide) (by decide) (by decide) (by decide)

theorem sendable_route6 (oif id : Nat) :
    Sendable (netlinkFillDefaultRoute6 requestCap oif (net6Addr id true)) := by
  have hcap : 28 + nlaAlign (4 + 16) ≤ requestCap := by decide
  have hcap' : 48 + 8 ≤ requestCap := by decide
  obtain ⟨mem, hrun, hkeep⟩ := putAttr_keeps (fillRouteHdr afInet6) 28
    ⟨UInt16.ofInt rtaGateway, net6Addr id true⟩ (net6Addr_length id true) (by decide) hcap
  obtain ⟨mem', hrun', hkeep'⟩ := putU32_keeps mem 48 rtaOif (UInt32.ofNat oif) hcap'
  have hfill : netlinkFillDefaultRoute6 requestCap oif (net6Addr id true) =
      finish (0, ⟨mem', 56⟩) := by
    unfold netlinkFillDefaultRoute6
    rw [hrun]
    exact congrArg finish hrun'
  rw [hfill]
  exact sendable_finish rtmNewroute ((hkeep' 4 (by decide)).trans (hkeep 4 (by decide)))
    ((hkeep' 5 (by decide)).trans (hkeep 5 (by decide))) (by decide) (by decide) (by decide)
    (by decide)

end Requests

section Exchanges

variable {κ : Kernel} {s s' : Sock}

/-- The requests with the codes that acknowledge them, from the `n`-th code on. -/
def ackedFrom (κ : Kernel) : Nat → List Bytes → List (Bytes × Int)
  | _, [] => []
  | n, req :: reqs => (req, κ.code n) :: ackedFrom κ (n + 1) reqs

def acksFrom (κ : Kernel) (n : Nat) (reqs : List Bytes) : List Bytes :=
  (ackedFrom κ n reqs).map fun p => ackMsg p.1 p.2

theorem ackedFrom_length (n : Nat) (reqs : List Bytes) : (ackedFrom κ n reqs).length = reqs.length := by
  induction reqs generalizing n with
  | nil => rfl
  | cons req reqs ih => exact congrArg (· + 1) (ih (n + 1))

theorem ackedFrom_append (n : Nat) (reqs reqs' : List Bytes) :
    ackedFrom κ n (reqs ++ reqs') = ackedFrom κ n reqs ++ ackedFrom κ (n + reqs.length) reqs' := by
  induction reqs generalizing n with
  | nil => rfl
  | cons req reqs ih =>
    have hn : n + 1 + reqs.length = n + (req :: reqs).length := by
      rw [List.length_cons]
      omega
    rw [List.cons_append, ackedFrom, ih, hn]
    rfl

/-- The requests are answered, and as many datagrams are taken off the queue. -/
structure Exchanged (κ : Kernel) (reqs : List Bytes) (s s' : Sock) : Prop where
  queue : s'.queue = (s.queue ++ acksFrom κ s.acked.length reqs).drop reqs.length
  acked : s'.acked = s.acked ++ ackedFrom κ s.acked.length reqs
  dumps : s'.dumps = s.dumps

theorem acksFrom_append (n : Nat) (reqs reqs' : List Bytes) :
    acksFrom κ n (reqs ++ reqs') = acksFrom κ n reqs ++ acksFrom κ (n + reqs.length) reqs' := by
  rw [acksFrom, ackedFrom_append, List.map_append]
  rfl

theorem Exchanged.append {reqs reqs' : List Bytes} {t : Sock} (h : Exchanged κ reqs s s')
    (h' : Exchanged κ reqs' s' t) : Exchanged κ (reqs ++ reqs') s t := by
  have hlen : s'.acked.length = s.acked.length + reqs.length := by
    rw [h.acked, List.length_append, ackedFrom_length]
  have hle : reqs.length ≤ (s.queue ++ acksFrom κ s.acked.length reqs).length := by
    rw [List.length_append, acksFrom, List.length_map, ackedFrom_length]
    omega
  refine ⟨?_, ?_, h'.dumps.trans h.dumps⟩
  · rw [h'.queue, h.queue, hlen, acksFrom_append, List.length_append, ← List.append_assoc,
      ← List.drop_drop, List.drop_append_of_le_length hle]
  · rw [h'.acked, hlen, h.acked, ackedFrom_append, List.append_assoc]

theorem nlTransact_works (hworks : ∀ n, κ.works n = true) (cap : Nat) {filled : Int × Mem}
    (h : Sendable filled) (s : Sock) :
    ∃ s', nlTransact κ cap filled s = .ok (0, s') ∧ Exchanged κ [request filled.2] s s' := by
  have hanswer : s.tick.answer κ (request filled.2) = { s.tick with
      queue := s.queue ++ [ackMsg (request filled.2) (κ.code s.acked.length)]
      acked := s.acked ++ [(request filled.2, κ.code s.acked.length)] } := by
    rw [Sock.answer, if_neg h.type]
    rfl
  obtain ⟨d, queue, hqueue⟩ : ∃ d queue,
      s.queue ++ [ackMsg (request filled.2) (κ.code s.acked.length)] = d :: queue :=
    List.exists_cons_of_ne_nil (by simp)
  have hfirst : (s.tick.answer κ (request filled.2)).queue = d :: queue := by
    rw [hanswer]
    exact hqueue
  have hrun : nlTransact κ cap filled s =
      .ok (0, (s.tick.answer κ (request filled.2)).took queue) := by
    unfold nlTransact
    rw [if_neg (by rw [h.ok]; decide)]
    refine (run_ok (sysNetlinkSend_works hworks _ s)).trans ?_
    rw [if_neg (by decide)]
    exact run_ok (sysNetlinkRecv_next hworks hfirst cap)
  refine ⟨_, hrun, ?_⟩
  rw [hanswer]
  refine ⟨?_, rfl, rfl⟩
  show queue = (s.queue ++ [ackMsg (request filled.2) (κ.code s.acked.length)]).drop 1
  rw [hqueue]
  rfl

theorem ackMsg_length (req : Bytes) (code : Int) : (ackMsg req code).length = 36 := by
  simp only [ackMsg, leInt, List.length_append, le32_length, le16_length, List.length_take,
    List.length_replicate]
  omega

/-- `netlink_ack_result`, on which `netlink_create_veth` relies, tells refusals from
success. -/
theorem netlinkAckResult_ackMsg (req : Bytes) {code : Int} (hlower : -2 ^ 31 ≤ code)
    (hupper : code < 2 ^ 31) :
    netlinkAckResult (ackMsg req code) = .ok (if code = 0 then 0 else -1) := by
  have hlen := ackMsg_length req code
  have hstart : (ackMsg req code).drop 0 = le32 36 ++ (le16 nlmsgError ++ (le16 0 ++ (le32 1 ++
      (le32 0 ++ (leInt code ++ (req ++ List.replicate 16 0).take 16))))) := by
    simp only [ackMsg, List.drop_zero, List.append_assoc]
  have htype := drop_behind hstart
  have hcode := drop_behind (drop_behind (drop_behind (drop_behind htype)))
  have hok : nlmsgOk (ackMsg req code) 0 36 = .ok (some 36) := by
    unfold nlmsgOk
    rw [rd32_le32 hstart (by decide)]
    rfl
  have herrtype : rd16 (ackMsg req code) 4 = .ok nlmsgError := rd16_le16 htype (by decide)
  have herror : rd32 (ackMsg req code) 16 = .ok (code % 2 ^ 32).toNat := rd32_le32 hcode (by omega)
  unfold netlinkAckResult
  rw [hlen, hok]
  show (rd16 (ackMsg req code) 4 >>= fun type => if type ≠ nlmsgError then pure 0
    else if 36 < nlmsgHdrLen + 20 then pure (-1)
    else rd32 (ackMsg req code) 16 >>= fun error => pure (if error = 0 then 0 else -1)) = _
  rw [herrtype, herror]
  by_cases hzero : code = 0
  · subst hzero
    rfl
  · have hne : ¬ (code % 2 ^ 32).toNat = 0 := by omega
    show Except.ok (if (code % 2 ^ 32).toNat = 0 then (0 : Int) else -1) = _
    rw [if_neg hzero, if_neg hne]

/-- The sibling of `nl_transact` returns what the kernel has answered. -/
theorem sysNetlinkSendAck_works (hworks : ∀ n, κ.works n = true) {req : Bytes}
    (htype : msgType req ≠ rtmGetlink) (hqueue : s.queue = [])
    (hlower : -2 ^ 31 ≤ κ.code s.acked.length) (hupper : κ.code s.acked.length < 2 ^ 31) :
    ∃ s', sysNetlinkSendAck κ req s = .ok (if κ.code s.acked.length = 0 then 0 else -1, s') := by
  have hanswer : (s.tick.answer κ req).queue = [ackMsg req (κ.code s.acked.length)] := by
    rw [Sock.answer, if_neg htype]
    show s.queue ++ [ackMsg req (κ.code s.acked.length)] = _
    rw [hqueue]
    rfl
  have hwhole : (ackMsg req (κ.code s.acked.length)).take 4096 = ackMsg req (κ.code s.acked.length) := by
    refine List.take_of_length_le ?_
    rw [ackMsg_length]
    decide
  refine ⟨(s.tick.answer κ req).took [], (run_ok (sysNetlinkSend_works hworks req s)).trans ?_⟩
  rw [if_neg (by decide)]
  refine (run_ok (sysNetlinkRecv_next hworks hanswer 4096)).trans ?_
  rw [hwhole]
  exact parse_ok (netlinkAckResult_ackMsg req hlower hupper) _

end Exchanges

section Lists

variable {κ : Kernel}

/-- What `netlink_recv_dump` gets from a queue, and what it leaves there. -/
def receive (cap : Nat) : List Bytes → Bytes → Except Halt (Bytes × List Bytes)
  | [], got => if cap ≤ got.length then .ok (got, []) else .error .blocked
  | d :: queue, got =>
      if cap ≤ got.length then .ok (got, d :: queue)
      else
        match d.take (cap - got.length) with
        | [] => .ok (got, queue)
        | b :: x =>
            match nlHasDone ((b :: x).length + 1) (b :: x) with
            | .error f => .error (.fault f)
            | .ok true => .ok (got ++ b :: x, queue)
            | .ok false => receive cap queue (got ++ b :: x)

/-- What a run of a function of the socket comes to, if its result is `a` and it
leaves `queue`, or if it does not return. -/
def Leaves {A B : Type} (s : Sock) (f : A → B) : Except Halt (A × List Bytes) →
    Except Halt (B × Sock) → Prop
  | .ok (a, queue), r => ∃ s', r = .ok (f a, s') ∧ s'.queue = queue ∧ s'.acked = s.acked ∧
      s'.dumps = s.dumps
  | .error h, r => r = .error h

theorem run_error {A B : Type} {m : NetM A} {f : A → NetM B} {s : Sock} {h : Halt}
    (hm : m s = .error h) : (m >>= f) s = .error h := by
  show (m s >>= fun r => f r.1 r.2) = _
  rw [hm]
  rfl

theorem sysNetlinkRecv_blocked (hworks : ∀ n, κ.works n = true) {s : Sock} (hqueue : s.queue = [])
    (n : Nat) : sysNetlinkRecv κ n s = .error .blocked := by
  refine (run_ok (sysCall_works hworks s)).trans ?_
  rw [if_pos rfl]
  refine (run_ok (show (get : NetM Sock) s.tick = .ok (s.tick, s.tick) from rfl)).trans ?_
  have htick : s.tick.queue = [] := hqueue
  rw [htick]
  rfl

theorem recvDumpLoop_receive (cap : Nat) (hworks : ∀ n, κ.works n = true) (queue : List Bytes) :
    ∀ (got : Bytes) (rounds : Nat) (s : Sock), s.queue = queue → queue.length < rounds →
      Leaves s some (receive cap queue got) (recvDumpLoop κ cap rounds got s) := by
  induction queue with
  | nil =>
    intro got rounds s hqueue hrounds
    obtain ⟨rounds, rfl⟩ := Nat.exists_eq_add_one.mpr (Nat.zero_lt_of_lt hrounds)
    unfold receive
    by_cases hfull : cap ≤ got.length
    · rw [if_pos hfull, recvDumpLoop_full hfull]
      exact ⟨s, rfl, hqueue, rfl, rfl⟩
    · rw [if_neg hfull, recvDumpLoop, if_neg hfull]
      exact run_error (sysNetlinkRecv_blocked hworks hqueue _)
  | cons d queue ih =>
    intro got rounds s hqueue hrounds
    obtain ⟨rounds, rfl⟩ := Nat.exists_eq_add_one.mpr (Nat.zero_lt_of_lt hrounds)
    unfold receive
    by_cases hfull : cap ≤ got.length
    · rw [if_pos hfull, recvDumpLoop_full hfull]
      exact ⟨s, rfl, hqueue, rfl, rfl⟩
    · rw [if_neg hfull, recvDumpLoop, if_neg hfull]
      have hrecv := sysNetlinkRecv_next hworks hqueue (cap - got.length)
      cases hd : d.take (cap - got.length) with
      | nil =>
        rw [hd] at hrecv
        rw [run_ok hrecv]
        exact ⟨_, rfl, rfl, rfl, rfl⟩
      | cons b x =>
        rw [hd] at hrecv
        rw [run_ok hrecv]
        dsimp only
        cases hdone : nlHasDone ((b :: x).length + 1) (b :: x) with
        | error f => exact rfl
        | ok done =>
          cases done with
          | true => exact ⟨_, rfl, rfl, rfl, rfl⟩
          | false => exact ih _ rounds _ rfl (Nat.lt_of_succ_lt_succ hrounds)

/-- What `netlink_dump_find_ifname` makes of the datagrams that the list begins with,
and what it leaves of them. -/
def lookUp (queue : List Bytes) (name : CStr) : Except Halt (Option Nat × List Bytes) :=
  match receive dumpCap queue [] with
  | .error h => .error h
  | .ok (d, rest) =>
      match netlinkFindIfname (d.length + 1) d name with
      | .error f => .error (.fault f)
      | .ok r => .ok (r, rest)

theorem netlinkDumpFindIfname_works (hworks : ∀ n, κ.works n = true) (s : Sock) (name : CStr) :
    Leaves { s with dumps := s.dumps + 1 } id (lookUp (s.queue ++ κ.dump s.dumps) name)
      (netlinkDumpFindIfname κ name s) := by
  have hanswer : s.tick.answer κ (netlinkRequestFill netlinkRequestLen rtmGetlink nlmFDump 0) =
      { s.tick with queue := s.queue ++ κ.dump s.dumps, dumps := s.dumps + 1 } := by
    rw [Sock.answer, if_pos dumpRequest_type]
    rfl
  have hdump : dumpAll κ dumpCap s = sysNetlinkRecvDump κ dumpCap
      (s.tick.answer κ (netlinkRequestFill netlinkRequestLen rtmGetlink nlmFDump 0)) := by
    unfold dumpAll
    rw [netlinkFillDumpLink_fits]
    refine (run_ok (sysNetlinkSend_works hworks _ s)).trans ?_
    rw [if_neg (by decide)]
  have hloop := recvDumpLoop_receive dumpCap hworks (s.queue ++ κ.dump s.dumps) []
    ((s.queue ++ κ.dump s.dumps).length + 1)
    (s.tick.answer κ (netlinkRequestFill netlinkRequestLen rtmGetlink nlmFDump 0))
    (by rw [hanswer]) (Nat.lt_succ_self _)
  have hrecv : Leaves { s with dumps := s.dumps + 1 } some
      (receive dumpCap (s.queue ++ κ.dump s.dumps) []) (dumpAll κ dumpCap s) := by
    rw [hdump]
    rw [hanswer] at hloop ⊢
    exact hloop
  unfold lookUp netlinkDumpFindIfname
  cases hreceive : receive dumpCap (s.queue ++ κ.dump s.dumps) [] with
  | error h =>
    rw [hreceive] at hrecv
    exact run_error hrecv
  | ok r =>
    rw [hreceive] at hrecv
    obtain ⟨s', hrun, hrest⟩ := hrecv
    rw [run_ok hrun]
    dsimp only
    cases netlinkFindIfname (r.1.length + 1) r.1 name with
    | error f => exact rfl
    | ok found => exact ⟨s', rfl, hrest⟩

end Lists

section Setup

variable {κ : Kernel}

/-- The requests about the interface of the sandbox, in their order. -/
def requests (id eth : Nat) : List Bytes :=
  [request (netlinkFillAddr requestCap eth 31 (netCageIp id)).2,
    request (netlinkFillUp eth).2,
    request (netlinkFillDefaultRoute requestCap eth (netHostIp id)).2,
    request (netlinkFillAddr6 requestCap eth net6Prefixlen (net6Addr id false)).2,
    request (netlinkFillDefaultRoute6 requestCap eth (net6Addr id true)).2]

theorem configChildV4_works (hworks : ∀ n, κ.works n = true) (id eth : Nat) (s : Sock) :
    ∃ s', configChildV4 κ id eth s = .ok (0, s') ∧
      Exchanged κ ((requests id eth).take 3) s s' := by
  obtain ⟨s₁, haddr, hs₁⟩ := nlTransact_works hworks requestCap
    (sendable_addr eth (netCageIp id)) s
  obtain ⟨s₂, hup, hs₂⟩ := nlTransact_works hworks requestCap (sendable_up eth) s₁
  obtain ⟨s₃, hroute, hs₃⟩ := nlTransact_works hworks requestCap
    (sendable_route eth (netHostIp id)) s₂
  refine ⟨s₃, ?_, (hs₁.append hs₂).append hs₃⟩
  refine (run_ok haddr).trans ?_
  rw [if_neg (by decide)]
  refine (run_ok hup).trans ?_
  rw [if_neg (by decide)]
  exact hroute

theorem configChildV6_works (hworks : ∀ n, κ.works n = true) (id eth : Nat) (s : Sock) :
    ∃ s', configChildV6 κ id eth s = .ok ((), s') ∧
      Exchanged κ ((requests id eth).drop 3) s s' := by
  obtain ⟨s₁, haddr, hs₁⟩ := nlTransact_works hworks requestCap
    (sendable_addr6 eth id false) s
  obtain ⟨s₂, hroute, hs₂⟩ := nlTransact_works hworks requestCap
    (sendable_route6 eth id) s₁
  refine ⟨s₂, ?_, hs₁.append hs₂⟩
  refine (run_ok haddr).trans ?_
  rw [if_pos rfl]
  exact run_ok hroute

theorem configChildLink_works (hworks : ∀ n, κ.works n = true) (id : Nat) (s : Sock) :
    match lookUp (s.queue ++ κ.dump s.dumps) (lit "eth0") with
    | .ok (some eth, rest) => ∃ s', configChildLink κ id s = .ok (0, s') ∧
        Exchanged κ (requests id eth) { s with queue := rest, dumps := s.dumps + 1 } s'
    | .ok (none, _) => ∃ s', configChildLink κ id s = .ok (-1, s')
    | .error h => configChildLink κ id s = .error h := by
  have hfind := netlinkDumpFindIfname_works hworks s (lit "eth0")
  cases hlook : lookUp (s.queue ++ κ.dump s.dumps) (lit "eth0") with
  | error h =>
    rw [hlook] at hfind
    exact run_error hfind
  | ok r =>
    rw [hlook] at hfind
    obtain ⟨r, rest⟩ := r
    obtain ⟨s₁, hrun, hqueue, hacked, hdumps⟩ := hfind
    unfold configChildLink
    cases r with
    | none => exact ⟨s₁, run_ok hrun⟩
    | some eth =>
      obtain ⟨s₂, hv4, hs₂⟩ := configChildV4_works hworks id eth s₁
      obtain ⟨s₃, hv6, hs₃⟩ := configChildV6_works hworks id eth s₂
      have hall := hs₂.append hs₃
      rw [List.take_append_drop] at hall
      refine ⟨s₃, (run_ok hrun).trans ?_, ?_⟩
      · refine (run_ok hv4).trans ?_
        rw [if_neg (by decide)]
        exact run_ok hv6
      · exact ⟨by rw [hall.queue, hqueue, hacked], by rw [hall.acked, hacked],
          hall.dumps.trans hdumps⟩

theorem setupLoopback_works (hworks : ∀ n, κ.works n = true) (s : Sock) :
    match lookUp (s.queue ++ κ.dump s.dumps) (lit "lo") with
    | .ok (some lo, _) => ∃ s', setupLoopback κ s = .ok (0, s') ∧
        s'.acked = s.acked ++ ackedFrom κ s.acked.length [request (netlinkFillUp lo).2]
    | .ok (none, _) => ∃ s', setupLoopback κ s = .ok (-1, s')
    | .error h => setupLoopback κ s = .error h := by
  have hfind := netlinkDumpFindIfname_works hworks s (lit "lo")
  cases hlook : lookUp (s.queue ++ κ.dump s.dumps) (lit "lo") with
  | error h =>
    rw [hlook] at hfind
    exact run_error hfind
  | ok r =>
    rw [hlook] at hfind
    obtain ⟨r, rest⟩ := r
    obtain ⟨s₁, hrun, -, hacked, -⟩ := hfind
    unfold setupLoopback
    cases r with
    | none => exact ⟨s₁, run_ok hrun⟩
    | some lo =>
      obtain ⟨s₂, hup, hs₂⟩ := nlTransact_works hworks requestCap (sendable_up lo) s₁
      refine ⟨s₂, (run_ok hrun).trans hup, ?_⟩
      rw [hs₂.acked, hacked]

/-- What the kernel sends for the two lists of links, the second behind what is left
in the queue, shows a link `eth0` and a link `lo`. -/
def ListsShow (κ : Kernel) (id eth lo : Nat) : Prop :=
  ∃ rest rest', lookUp (κ.dump 0) (lit "eth0") = .ok (some eth, rest) ∧
    lookUp ((rest ++ acksFrom κ 0 (requests id eth)).drop 5 ++ κ.dump 1) (lit "lo") =
      .ok (some lo, rest')

theorem netSetupChild_linked (hworks : ∀ n, κ.works n = true) {id : Nat} {s : Sock}
    (h : configChildLink κ id Sock.fresh.tick = .ok (0, s)) :
    netSetupChild κ id Sock.fresh =
      (do if (← setupLoopback κ) < 0 then pure (-1) else pure 0 : NetM Int) s := by
  refine (run_ok (sysNetlinkOpen_works hworks Sock.fresh)).trans ?_
  rw [if_neg (by decide)]
  refine (run_ok h).trans ?_
  rw [if_neg (by decide)]

/-- What the second list is read from. -/
theorem Exchanged.queue_lists {id eth : Nat} {rest : List Bytes} {s : Sock}
    (h : Exchanged κ (requests id eth)
      { Sock.fresh.tick with queue := rest, dumps := Sock.fresh.tick.dumps + 1 } s) :
    s.queue ++ κ.dump s.dumps = (rest ++ acksFrom κ 0 (requests id eth)).drop 5 ++ κ.dump 1 := by
  rw [h.dumps, h.queue]
  rfl

theorem netSetupChild_shown (hworks : ∀ n, κ.works n = true) {id eth lo : Nat}
    (h : ListsShow κ id eth lo) : ∃ s', netSetupChild κ id Sock.fresh = .ok (0, s') ∧
      s'.acked = ackedFrom κ 0 (requests id eth ++ [request (netlinkFillUp lo).2]) := by
  obtain ⟨rest, rest', heth, hlo⟩ := h
  have hlink := configChildLink_works hworks id Sock.fresh.tick
  rw [show Sock.fresh.tick.queue ++ κ.dump Sock.fresh.tick.dumps = κ.dump 0 from rfl, heth] at hlink
  obtain ⟨s₁, hrun₁, hs₁⟩ := hlink
  have hloop := setupLoopback_works hworks s₁
  rw [hs₁.queue_lists, hlo] at hloop
  obtain ⟨s₂, hrun₂, hs₂⟩ := hloop
  refine ⟨s₂, (netSetupChild_linked hworks hrun₁).trans (run_ok hrun₂), ?_⟩
  have hacked : s₁.acked = ackedFrom κ 0 (requests id eth) := hs₁.acked
  rw [hs₂, hacked, ackedFrom_append, ackedFrom_length, Nat.zero_add]

theorem listsShow_of_zero (hworks : ∀ n, κ.works n = true) {id : Nat} {s' : Sock}
    (h : netSetupChild κ id Sock.fresh = .ok (0, s')) : ∃ eth lo, ListsShow κ id eth lo := by
  have hlink := configChildLink_works hworks id Sock.fresh.tick
  rw [show Sock.fresh.tick.queue ++ κ.dump Sock.fresh.tick.dumps = κ.dump 0 from rfl] at hlink
  have hopen : netSetupChild κ id Sock.fresh = (do
      if (← configChildLink κ id) < 0 then pure (-1)
      else if (← setupLoopback κ) < 0 then pure (-1)
      else pure 0 : NetM Int) Sock.fresh.tick := by
    refine (run_ok (sysNetlinkOpen_works hworks Sock.fresh)).trans ?_
    rw [if_neg (by decide)]
  cases heth : lookUp (κ.dump 0) (lit "eth0") with
  | error e =>
    rw [heth] at hlink
    cases h.symm.trans (hopen.trans (run_error hlink))
  | ok r =>
    rw [heth] at hlink
    obtain ⟨r, rest⟩ := r
    cases r with
    | none =>
      obtain ⟨s₁, hrun⟩ := hlink
      cases h.symm.trans (hopen.trans (run_ok hrun))
    | some eth =>
      obtain ⟨s₁, hrun₁, hs₁⟩ := hlink
      have hloop := setupLoopback_works hworks s₁
      rw [hs₁.queue_lists] at hloop
      cases hlo : lookUp ((rest ++ acksFrom κ 0 (requests id eth)).drop 5 ++ κ.dump 1) (lit "lo") with
      | error e =>
        rw [hlo] at hloop
        cases h.symm.trans ((netSetupChild_linked hworks hrun₁).trans (run_error hloop))
      | ok r =>
        rw [hlo] at hloop
        obtain ⟨r, rest'⟩ := r
        cases r with
        | none =>
          obtain ⟨s₂, hrun⟩ := hloop
          cases h.symm.trans ((netSetupChild_linked hworks hrun₁).trans (run_ok hrun))
        | some lo => exact ⟨eth, lo, rest, rest', heth, hlo⟩

/-- The IPv4 address, the interface and the default route of the sandbox and the
loopback interface are acknowledged with error 0. -/
def Acknowledged (id : Nat) (acked : List (Bytes × Int)) : Prop :=
  ∃ eth lo, (((requests id eth).take 3).map fun req => (req, (0 : Int))) <+: acked ∧
    [(request (netlinkFillUp lo).2, (0 : Int))] <:+ acked

/-- `net_setup_child` returns 0 only if the kernel has refused nothing. -/
def RefusalsShow (κ : Kernel) (id : Nat) : Prop :=
  ∀ s', netSetupChild κ id Sock.fresh = .ok (0, s') → Acknowledged id s'.acked

/-- The kernel acknowledges them with error 0. -/
structure Accepts (κ : Kernel) : Prop where
  addr : κ.code 0 = 0
  up : κ.code 1 = 0
  route : κ.code 2 = 0
  loopback : κ.code 5 = 0

theorem accepts_of_refusalsShow (hworks : ∀ n, κ.works n = true) {id eth lo : Nat}
    (h : RefusalsShow κ id) (hshow : ListsShow κ id eth lo) : Accepts κ := by
  obtain ⟨s', hrun, hacked⟩ := netSetupChild_shown hworks hshow
  obtain ⟨eth', lo', hfirst, hlast⟩ := h s' hrun
  rw [hacked] at hfirst hlast
  obtain ⟨t, ht⟩ := hfirst
  obtain ⟨t', ht'⟩ := hlast
  have hcodes := congrArg (List.map Prod.snd) ht
  have hcode := congrArg (fun l => (List.map Prod.snd l).getLast?) ht'
  rw [List.map_append] at hcodes
  simp only [List.map_append, List.map_cons, List.map_nil, List.getLast?_append,
    List.getLast?_singleton, Option.some_or, ackedFrom_append, ackedFrom] at hcode
  have h0 : 0 = κ.code 0 := congrArg (fun l => l.getD 0 0) hcodes
  have h1 : 0 = κ.code 1 := congrArg (fun l => l.getD 1 0) hcodes
  have h2 : 0 = κ.code 2 := congrArg (fun l => l.getD 2 0) hcodes
  exact ⟨h0.symm, h1.symm, h2.symm, (Option.some.inj hcode).symm⟩

theorem refusalsShow_iff (κ : Kernel) (id : Nat) (hworks : ∀ n, κ.works n = true) :
    RefusalsShow κ id ↔ ((∃ eth lo, ListsShow κ id eth lo) → Accepts κ) := by
  constructor
  · rintro h ⟨eth, lo, hshow⟩
    exact accepts_of_refusalsShow hworks h hshow
  · intro h s' hrun
    obtain ⟨eth, lo, hshow⟩ := listsShow_of_zero hworks hrun
    obtain ⟨s'', hrun', hacked⟩ := netSetupChild_shown hworks hshow
    obtain ⟨haddr, hup, hroute, hlo⟩ := h ⟨eth, lo, hshow⟩
    rw [← (Prod.mk.inj (Except.ok.inj (hrun'.symm.trans hrun))).2, hacked]
    refine ⟨eth, lo, ?_, ?_⟩
    · have hfirst : ((requests id eth).take 3).map (fun req => (req, (0 : Int))) =
          ackedFrom κ 0 ((requests id eth).take 3) := by
        simp only [requests, List.take_succ_cons, List.take_zero, List.map_cons, List.map_nil,
          ackedFrom, haddr, hup, hroute]
      rw [hfirst, ← List.take_append_drop 3 (requests id eth), List.append_assoc,
        ackedFrom_append, List.take_append_drop]
      exact List.prefix_append _ _
    · rw [ackedFrom_append]
      refine ⟨ackedFrom κ 0 (requests id eth), ?_⟩
      rw [ackedFrom, ackedFrom, show 0 + (requests id eth).length = 5 from rfl, hlo]

/-- A list with one link. -/
def nameDump (name : CStr) (hends : (0 : UInt8) ∉ name) (hname : name.length ≤ 15) : List Bytes :=
  [(sampleLink name 0 hends hname unpadded).msg.bytes ++ lastMsg.bytes]

theorem lo_ends : (0 : UInt8) ∉ lit "lo" := by decide

theorem lo_short : (lit "lo").length ≤ 15 := by decide

/-- A kernel that has both links. -/
def bothLinks (code : Nat → Int) : Kernel where
  works _ := true
  code := code
  dump
    | 0 => nameDump (lit "eth0") eth0_ends eth0_short
    | _ => nameDump (lit "lo") lo_ends lo_short

theorem bothLinks_lists (code : Nat → Int) : ListsShow (bothLinks code) 3 7 7 :=
  ⟨[], [], by rfl, by rfl⟩

/-- It refuses the IPv6 address alone, for which the setup goes on. -/
theorem refusalsShow_iff_listing :
    RefusalsShow (bothLinks fun n => if n = 3 then -1 else 0) 3 ∧
      ∃ s', netSetupChild (bothLinks fun n => if n = 3 then -1 else 0) 3 Sock.fresh = .ok (0, s') := by
  obtain ⟨s', hrun, -⟩ := netSetupChild_shown (fun _ => rfl) (bothLinks_lists fun n => if n = 3 then -1 else 0)
  exact ⟨(refusalsShow_iff _ 3 fun _ => rfl).mpr fun _ => ⟨rfl, rfl, rfl, rfl⟩, s', hrun⟩

/-- Every change is refused with `EPERM`, which the sibling path notices. -/
theorem refusalsShow_fails :
    (¬ ∀ (κ : Kernel) (id : Nat), (∀ n, κ.works n = true) → RefusalsShow κ id) ∧
      ∃ s', sysNetlinkSendAck (bothLinks fun _ => -1) (request (netlinkFillUp 7).2) Sock.fresh =
        .ok (-1, s') := by
  constructor
  · intro h
    have haccepts := accepts_of_refusalsShow (fun _ => rfl) (h (bothLinks fun _ => -1) 3 fun _ => rfl)
      (bothLinks_lists _)
    exact absurd haccepts.addr (by decide)
  · exact sysNetlinkSendAck_works (fun _ => rfl) (sendable_up 7).type rfl (by decide) (by decide)

end Setup

end Cage.Net
