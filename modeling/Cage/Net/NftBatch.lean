import Cage.Net.Nft

/-!
What is put into a batch is what a walk over it meets: the beginning, the requests that
fit with their sequence numbers, and the end. None of the bytes on the stack is sent.
-/

namespace Cage.Net

open Util

/-- A message that a walk has met. -/
structure Heard where
  type : Nat
  flags : Nat
  seq : Nat
  pid : Nat
  body : Bytes
  deriving DecidableEq, Repr

namespace Heard

def bytes (h : Heard) : Bytes := nlmsghdr (16 + h.body.length) h.type h.flags h.seq h.pid ++ h.body

/-- The message has a place in a batch. -/
structure Right (h : Heard) : Prop where
  type : h.type < 65536
  flags : h.flags < 65536
  seq : h.seq < 2 ^ 32
  pid : h.pid < 2 ^ 32
  aligned : h.body.length % 4 = 0
  small : h.body.length < 2 ^ 31

theorem bytes_length (h : Heard) : h.bytes.length = 16 + h.body.length := by
  simp only [bytes, nlmsghdr, List.length_append, le32_length, le16_length]

end Heard

def heardBody (data : Bytes) (off len : Nat) (heard : List Heard) : Rd (List Heard × Bool) := do
  let type ← rd16 data (off + 4)
  let flags ← rd16 data (off + 6)
  let seq ← rd32 data (off + 8)
  let pid ← rd32 data (off + 12)
  pure (heard ++ [⟨type, flags, seq, pid, (data.drop (off + 16)).take (len - 16)⟩], false)

/-- The messages that `NLMSG_OK` and `NLMSG_NEXT` lead to. -/
def walkMsgs (data : Bytes) : Rd (List Heard) :=
  eachMsg data (heardBody data) (data.length + 1) 0 data.length []

section Walk

variable {data : Bytes} {off : Nat}

theorem heard_at {h : Heard} {t : Bytes} (hdata : data.drop off = h.bytes ++ t) (hright : h.Right)
    (heard : List Heard) :
    rd32 data off = .ok (16 + h.body.length) ∧
      heardBody data off (16 + h.body.length) heard = .ok (heard ++ [h], false) := by
  have hsmall := hright.small
  simp only [Heard.bytes, nlmsghdr, List.append_assoc] at hdata
  have htype := drop_behind hdata
  have hflags := drop_behind htype
  have hseq := drop_behind hflags
  have hpid := drop_behind hseq
  have hbody := drop_behind hpid
  simp only [le32_length, le16_length, Nat.add_assoc] at htype hflags hseq hpid hbody
  refine ⟨rd32_le32 hdata (by omega), ?_⟩
  unfold heardBody
  rw [rd16_le16 htype hright.type, rd16_le16 hflags hright.flags, rd32_le32 hseq hright.seq,
    rd32_le32 hpid hright.pid, hbody, Nat.add_sub_cancel_left, List.take_left]
  rfl

/-- A walk over messages one behind the other meets them all. -/
theorem walk_heard (hs : List Heard) : ∀ (off rounds : Nat) (before : List Heard),
    (∀ h ∈ hs, h.Right) → data.drop off = hs.flatMap Heard.bytes → (data.drop off).length < 2 ^ 64 →
      hs.length < rounds →
        eachMsg data (heardBody data) rounds off (data.drop off).length before = .ok (before ++ hs) := by
  induction hs with
  | nil =>
    intro off rounds before _ hdata _ hrounds
    obtain ⟨rounds, rfl⟩ := Nat.exists_eq_add_one.mpr (Nat.zero_lt_of_lt hrounds)
    rw [List.append_nil]
    refine eachMsg_done ?_ rounds before
    rw [hdata]
    rfl
  | cons h hs ih =>
    intro off rounds before hright hdata hsize hrounds
    obtain ⟨rounds, rfl⟩ := Nat.exists_eq_add_one.mpr (Nat.zero_lt_of_lt hrounds)
    have hh := hright h List.mem_cons_self
    have hsmall := hh.small
    have haligned := hh.aligned
    rw [List.flatMap_cons] at hdata
    obtain ⟨hlen, hstep⟩ := heard_at hdata hh before
    have hrest := drop_behind hdata
    have htotal : (data.drop off).length = h.bytes.length + (data.drop (off + h.bytes.length)).length := by
      rw [hrest, hdata, List.length_append]
    have halign : nlmsgAlign (16 + h.body.length) = h.bytes.length := by
      rw [nlmsgAlign_eq (by omega), Heard.bytes_length]
      omega
    have hok : nlmsgOk data off (data.drop off).length = .ok (some (16 + h.body.length)) := by
      have hbytes := h.bytes_length
      unfold nlmsgOk nlmsgHdrLen
      rw [if_neg (by omega), hlen]
      show Except.ok (if 16 ≤ 16 + h.body.length ∧ _ then some _ else none) = _
      rw [if_pos (by omega)]
    have hnext : nlmsgNext (data.drop off).length (16 + h.body.length) =
        (data.drop (off + h.bytes.length)).length := by
      unfold nlmsgNext
      rw [halign]
      omega
    rw [eachMsg_some hok, hstep]
    show eachMsg data (heardBody data) rounds _ _ (before ++ [h]) = _
    rw [halign, hnext, ih _ rounds _ (fun g hg => hright g (List.mem_cons_of_mem h hg)) hrest (by omega)
      (Nat.lt_of_succ_lt_succ hrounds), List.append_assoc]
    rfl

theorem walkMsgs_bytes {hs : List Heard} (hright : ∀ h ∈ hs, h.Right)
    (hsize : (hs.flatMap Heard.bytes).length < 2 ^ 64) :
    walkMsgs (hs.flatMap Heard.bytes) = .ok hs := by
  have hlen : hs.length ≤ (hs.flatMap Heard.bytes).length := by
    clear hright hsize
    induction hs with
    | nil => exact Nat.le_refl 0
    | cons h hs ih =>
      rw [List.flatMap_cons, List.length_append, List.length_cons, Heard.bytes_length]
      omega
  exact walk_heard hs 0 _ [] hright rfl hsize (Nat.lt_succ_of_le hlen)

end Walk

/-- What `nft_batch_msg` is given. -/
structure Request where
  type : Nat
  flags : Nat
  msg : Mem
  mlen : Nat

/-- A header with whole attributes behind it. -/
structure Request.Right (q : Request) : Prop where
  type : q.type < 65536
  flags : q.flags < 65536
  header : 16 ≤ q.mlen
  aligned : q.mlen % 4 = 0
  small : q.mlen < 2 ^ 31

/-- The number that stands in memory at `i`. -/
def word (mem : Mem) (i : Nat) : Nat :=
  (mem i).toNat + 256 * (mem (i + 1)).toNat + 65536 * (mem (i + 2)).toNat +
    16777216 * (mem (i + 3)).toNat

def Request.heard (q : Request) (seq : Nat) : Heard :=
  ⟨q.type, nlmFRequest ||| q.flags, seq, word q.msg 12, span q.msg 16 (q.mlen - 16)⟩

def heardBegin : Heard :=
  ⟨nfnlMsgBatchBegin, nlmFRequest ||| nlmFAck, 0, 0, nfgenmsg afUnspec nftResId⟩

def heardEnd (seq : Nat) : Heard := ⟨nfnlMsgBatchEnd, nlmFRequest, seq, 0, nfgenmsg 0 nftResId⟩

def Request.put (q : Request) (b : Batch) : Option Batch := nftBatchMsg b q.type q.flags q.msg q.mlen

/-- The requests in order; what does not fit is left out. -/
def putAll : List Request → Batch → Batch
  | [], b => b
  | q :: qs, b => putAll qs ((q.put b).getD b)

/-- The messages of those that fit. -/
def taken : List Request → Batch → List Heard
  | [], _ => []
  | q :: qs, b =>
      match q.put b with
      | some b' => q.heard (b.seq + 1) :: taken qs b'
      | none => taken qs b

/-- What has been put into the batch so far. -/
structure Holds (b : Batch) (hs : List Heard) : Prop where
  bytes : span b.data 0 b.len = hs.flatMap Heard.bytes
  right : ∀ h ∈ hs, h.Right
  inside : b.len ≤ batchCap
  aligned : b.len % 4 = 0
  count : hs.length = b.seq + 1

theorem le32_word (mem : Mem) (i : Nat) : le32 (word mem i) = span mem i 4 := by
  have h0 := (mem i).toNat_lt
  have h1 := (mem (i + 1)).toNat_lt
  have h2 := (mem (i + 2)).toNat_lt
  have h3 := (mem (i + 3)).toNat_lt
  have hbyte {v : Nat} {b : UInt8} (h : v % 256 = b.toNat) : UInt8.ofNat v = b := by
    rw [← UInt8.toNat_inj, UInt8.toNat_ofNat']
    exact h
  show [_, _, _, _] = [_, _, _, _]
  unfold word
  rw [hbyte (b := mem i) (by omega), hbyte (b := mem (i + 1)) (by omega),
    hbyte (b := mem (i + 2)) (by omega), hbyte (b := mem (i + 3)) (by omega)]
  rfl

theorem word_lt (mem : Mem) (i : Nat) : word mem i < 2 ^ 32 := by
  have h0 := (mem i).toNat_lt
  have h1 := (mem (i + 1)).toNat_lt
  have h2 := (mem (i + 2)).toNat_lt
  have h3 := (mem (i + 3)).toNat_lt
  unfold word
  omega

theorem Holds.opened (stack : Mem) : Holds (nftBatchOpen stack) [heardBegin] where
  bytes := by
    have h := span_putBytes_self stack 0 heardBegin.bytes
    rw [List.flatMap_singleton]
    exact h
  right h hmem := by
    cases List.mem_singleton.mp hmem
    constructor <;> decide
  inside := (by decide : 20 ≤ 768)
  aligned := (by decide : 20 % 4 = 0)
  count := rfl

/-- The bytes of a request, with the header that `nft_batch_msg` writes. -/
theorem Request.sent (q : Request) (hright : q.Right) (seq : Nat) :
    span (putBytes (putBytes (putBytes (putBytes q.msg 0 (le32 q.mlen)) 4 (le16 q.type)) 6
      (le16 (nlmFRequest ||| q.flags))) 8 (le32 seq)) 0 q.mlen = (q.heard seq).bytes := by
  have hheader := hright.header
  have hbody : 16 + (span q.msg 16 (q.mlen - 16)).length = q.mlen := by
    rw [span_length]
    omega
  have hsplit : q.mlen = 16 + (q.mlen - 16) := by omega
  have hhead : span (putBytes (putBytes (putBytes (putBytes q.msg 0 (le32 q.mlen)) 4 (le16 q.type)) 6
      (le16 (nlmFRequest ||| q.flags))) 8 (le32 seq)) 0 16 =
        le32 q.mlen ++ le16 q.type ++ le16 (nlmFRequest ||| q.flags) ++ le32 seq ++ span q.msg 12 4 := rfl
  rw [congrArg (span _ 0) hsplit, span_add, hhead, Nat.zero_add]
  rw [span_putBytes_of_disjoint _ (Or.inr (by rw [le32_length]; omega)),
    span_putBytes_of_disjoint _ (Or.inr (by rw [le16_length]; omega)),
    span_putBytes_of_disjoint _ (Or.inr (by rw [le16_length]; omega)),
    span_putBytes_of_disjoint _ (Or.inr (by rw [le32_length]; omega))]
  unfold Heard.bytes Request.heard nlmsghdr
  dsimp only
  rw [hbody, le32_word]

theorem Request.heard_right (q : Request) (hright : q.Right) {seq : Nat} (hseq : seq < 2 ^ 32) :
    (q.heard seq).Right where
  type := hright.type
  flags := Nat.or_lt_two_pow (n := 16) (by decide) hright.flags
  seq := hseq
  pid := word_lt _ _
  aligned := by
    have haligned := hright.aligned
    have hheader := hright.header
    show (span _ _ _).length % 4 = 0
    rw [span_length]
    omega
  small := by
    have hsmall := hright.small
    show (span _ _ _).length < _
    rw [span_length]
    omega

/-- What is put behind the messages of a batch leaves those as they are. -/
theorem Holds.behind {b : Batch} {hs : List Heard} (h : Holds b hs) {m : Heard} (hm : m.Right)
    (hfit : b.len + m.bytes.length ≤ batchCap) :
    Holds ⟨putBytes b.data b.len m.bytes, b.len + m.bytes.length, b.seq + 1⟩ (hs ++ [m]) where
  bytes := by
    dsimp only
    rw [span_add, span_putBytes_of_disjoint _ (Or.inl (Nat.le_of_eq (Nat.zero_add _))), h.bytes,
      Nat.zero_add, span_putBytes_self, List.flatMap_append, List.flatMap_singleton]
  right g hg := by
    rcases List.mem_append.mp hg with hold | hnew
    · exact h.right g hold
    · cases List.mem_singleton.mp hnew
      exact hm
  inside := hfit
  aligned := by
    have halign := h.aligned
    have hm := hm.aligned
    have hlen := m.bytes_length
    dsimp only
    omega
  count := by
    rw [List.length_append, h.count]
    rfl

/-- The sequence numbers of a batch do not run out. -/
theorem Holds.seq_lt {b : Batch} {hs : List Heard} (h : Holds b hs) : b.seq + 1 < 2 ^ 32 := by
  have hle : hs.length ≤ (hs.flatMap Heard.bytes).length := by
    have hright := h.right
    clear h
    induction hs with
    | nil => exact Nat.le_refl 0
    | cons g gs ih =>
      have hgs := ih fun g' hg' => hright g' (List.mem_cons_of_mem g hg')
      rw [List.flatMap_cons, List.length_append, List.length_cons, Heard.bytes_length]
      omega
  have hlen : (hs.flatMap Heard.bytes).length = b.len := by rw [← h.bytes, span_length]
  have hcount := h.count
  have hinside : b.len ≤ 768 := h.inside
  omega

theorem Holds.put {b b' : Batch} {hs : List Heard} (h : Holds b hs) {q : Request} (hright : q.Right)
    (hput : q.put b = some b') : Holds b' (hs ++ [q.heard (b.seq + 1)]) := by
  have hsmall := hright.small
  have haligned := hright.aligned
  have hheader := hright.header
  have hm := q.heard_right hright h.seq_lt
  have hlen : (q.heard (b.seq + 1)).bytes.length = q.mlen := by
    rw [Heard.bytes_length]
    show 16 + (span _ _ _).length = _
    rw [span_length]
    omega
  have halign : nlmsgAlign q.mlen = q.mlen := by
    rw [nlmsgAlign_eq (by omega)]
    omega
  unfold Request.put nftBatchMsg at hput
  rw [halign] at hput
  split at hput
  · cases hput
  · rename_i hfit
    cases hput
    have hsent := q.sent hright (b.seq + 1)
    have hbehind := h.behind hm (by rw [hlen]; omega)
    rw [hlen, ← hsent] at hbehind
    exact hbehind

theorem Holds.putAll {qs : List Request} {b : Batch} {hs : List Heard} (h : Holds b hs)
    (hright : ∀ q ∈ qs, q.Right) : Holds (putAll qs b) (hs ++ taken qs b) := by
  induction qs generalizing b hs with
  | nil =>
    rw [taken, List.append_nil]
    exact h
  | cons q qs ih =>
    have hqs := fun q' hq' => hright q' (List.mem_cons_of_mem q hq')
    unfold Net.putAll taken
    cases hput : q.put b with
    | none => exact ih h hqs
    | some b' =>
      have hrest := ih (h.put (hright q List.mem_cons_self) hput) hqs
      rw [List.append_assoc] at hrest
      exact hrest

theorem heardEnd_right {seq : Nat} (h : seq < 2 ^ 32) : (heardEnd seq).Right :=
  ⟨(by decide : 17 < 65536), (by decide : 1 < 65536), h, (by decide : 0 < 2 ^ 32),
    (by decide : 4 % 4 = 0), (by decide : 4 < 2 ^ 31)⟩

theorem Holds.ended {b b' : Batch} {hs : List Heard} (h : Holds b hs) (hend : nftBatchEnd b = some b') :
    Holds b' (hs ++ [heardEnd (b.seq + 1)]) := by
  unfold nftBatchEnd at hend
  dsimp only at hend
  split at hend
  · cases hend
  · rename_i hfit
    cases hend
    have hlen : (heardEnd (b.seq + 1)).bytes.length = nlmsgAlign nfgenEnd := by
      rw [Heard.bytes_length]
      exact (by decide : 16 + 4 = nlmsgAlign nfgenEnd)
    have hbehind := h.behind (heardEnd_right h.seq_lt) (by rw [hlen]; omega)
    rw [hlen] at hbehind
    exact hbehind

theorem Holds.walk {b : Batch} {hs : List Heard} (h : Holds b hs) :
    walkMsgs (span b.data 0 b.len) = .ok hs := by
  have hlen := span_length b.data 0 b.len
  have hinside : b.len ≤ 768 := h.inside
  rw [h.bytes] at hlen ⊢
  exact walkMsgs_bytes h.right (by omega)

/-- What fits into a batch does not depend on the bytes that are there. -/
theorem putAll_shape (qs : List Request) {b c : Batch} (hlen : c.len = b.len) (hseq : c.seq = b.seq) :
    (putAll qs c).len = (putAll qs b).len ∧ (putAll qs c).seq = (putAll qs b).seq ∧
      taken qs c = taken qs b := by
  induction qs generalizing b c with
  | nil => exact ⟨hlen, hseq, rfl⟩
  | cons q qs ih =>
    unfold putAll taken
    have hput : q.put c = none ∧ q.put b = none ∨ ∃ c' b', q.put c = some c' ∧ q.put b = some b' ∧
        c'.len = b'.len ∧ c'.seq = b'.seq := by
      unfold Request.put nftBatchMsg
      rw [hlen, hseq]
      split
      · exact .inl ⟨rfl, rfl⟩
      · exact .inr ⟨_, _, rfl, rfl, rfl, rfl⟩
    rcases hput with ⟨hc, hb⟩ | ⟨c', b', hc, hb, hlen', hseq'⟩
    · rw [hc, hb]
      exact ih hlen hseq
    · rw [hc, hb]
      obtain ⟨hl, hs, ht⟩ := ih hlen' hseq'
      refine ⟨hl, hs, ?_⟩
      dsimp only
      rw [hseq, ht]

theorem nftBatchEnd_seq {b b' : Batch} (hend : nftBatchEnd b = some b') : b'.seq = b.seq + 1 := by
  unfold nftBatchEnd at hend
  dsimp only at hend
  split at hend <;> cases hend
  rfl

theorem nftBatchEnd_shape {b b' c : Batch} (hlen : c.len = b.len) (hend : nftBatchEnd b = some b') :
    ∃ c', nftBatchEnd c = some c' := by
  unfold nftBatchEnd at hend ⊢
  dsimp only at hend ⊢
  split at hend
  · cases hend
  · rename_i hfit
    rw [if_neg (hlen ▸ hfit)]
    exact ⟨_, rfl⟩

/-- Whatever is put into a batch, a walk over what is sent of it meets the beginning, the
requests that fit, numbered, and the end; and nothing that was on the stack is sent. -/
theorem batch_heard (stack : Mem) (qs : List Request) (hright : ∀ q ∈ qs, q.Right) {b : Batch}
    (hend : nftBatchEnd (putAll qs (nftBatchOpen stack)) = some b) :
    b.len ≤ batchCap ∧
      walkMsgs (span b.data 0 b.len) =
        .ok (heardBegin :: taken qs (nftBatchOpen stack) ++ [heardEnd b.seq]) ∧
      ∀ stack', ∃ c, nftBatchEnd (putAll qs (nftBatchOpen stack')) = some c ∧
        span c.data 0 c.len = span b.data 0 b.len := by
  have hholds := ((Holds.opened stack).putAll hright).ended hend
  refine ⟨hholds.inside, ?_, fun stack' => ?_⟩
  · rw [nftBatchEnd_seq hend]
    exact hholds.walk
  · obtain ⟨hlen, hseq, htaken⟩ := putAll_shape qs (b := nftBatchOpen stack) (c := nftBatchOpen stack') rfl rfl
    obtain ⟨c, hc⟩ := nftBatchEnd_shape hlen hend
    refine ⟨c, hc, ?_⟩
    rw [(((Holds.opened stack').putAll hright).ended hc).bytes, hholds.bytes, htaken, hseq]

/-- One request that fits, and one that does not. -/
def twoRequests : List Request := [⟨2560, 1536, fun _ => 7, 20⟩, ⟨2566, 1024, fun _ => 7, 800⟩]

theorem twoRequests_right : ∀ q ∈ twoRequests, q.Right := by
  intro q hq
  rcases List.mem_cons.mp hq with rfl | hq
  · constructor <;> decide
  · cases List.mem_singleton.mp hq
    constructor <;> decide

theorem twoRequests_taken : taken twoRequests (nftBatchOpen fun _ => 0xaa) =
    [⟨2560, 1537, 1, 0x07070707, [7, 7, 7, 7]⟩] := by decide +kernel

theorem batch_heard_full :
    ∃ b, nftBatchEnd (putAll twoRequests (nftBatchOpen fun _ => 0xaa)) = some b ∧
      walkMsgs (span b.data 0 b.len) =
        .ok (heardBegin :: [⟨2560, 1537, 1, 0x07070707, [7, 7, 7, 7]⟩] ++ [heardEnd b.seq]) := by
  have hfits : (nftBatchEnd (putAll twoRequests (nftBatchOpen fun _ => 0xaa))).isSome = true := by
    decide +kernel
  obtain ⟨b, hb⟩ := Option.isSome_iff_exists.mp hfits
  rw [← twoRequests_taken]
  exact ⟨b, hb, (batch_heard _ twoRequests twoRequests_right hb).2.1⟩

end Cage.Net
