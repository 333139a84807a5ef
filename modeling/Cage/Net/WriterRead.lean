import Cage.Net.Writer
import Cage.Net.ReaderSafe

/-!
What is put into a message is what a walk over it meets. The bytes of a tree of
attributes stand between: the writer leaves them in the buffer, and the walk
over them yields the tree.
-/

namespace Cage.Net

open Util

section Memory

variable (mem : Mem) {off : Nat}

theorem span_length (off len : Nat) : (span mem off len).length = len := by
  simp [span]

theorem span_add (off a b : Nat) : span mem off (a + b) = span mem off a ++ span mem (off + a) b := by
  unfold span
  rw [List.range_add, List.map_append, List.map_map]
  congr 1
  apply List.map_congr_left
  intro i _
  exact congrArg mem (Nat.add_assoc off a i).symm

theorem span_congr {mem mem' : Mem} {off len : Nat}
    (h : ∀ i, off ≤ i → i < off + len → mem i = mem' i) : span mem off len = span mem' off len := by
  apply List.map_congr_left
  intro i hi
  have hlt := List.mem_range.mp hi
  exact h (off + i) (by omega) (by omega)

theorem putBytes_outside {d : Bytes} {i : Nat} (h : i < off ∨ off + d.length ≤ i) :
    putBytes mem off d i = mem i := by
  unfold putBytes
  rw [if_neg (by omega)]

theorem span_putBytes_self (off : Nat) (d : Bytes) : span (putBytes mem off d) off d.length = d := by
  apply List.ext_getElem
  · rw [span_length]
  · intro i hi hd
    simp [span, putBytes, hd]

theorem span_putBytes_of_disjoint {d : Bytes} {o len : Nat} (h : o + len ≤ off ∨ off + d.length ≤ o) :
    span (putBytes mem off d) o len = span mem o len :=
  span_congr fun _ _ _ => putBytes_outside mem (by omega)

theorem span_zeros {mem : Mem} {off len : Nat} (h : ∀ i, off ≤ i → i < off + len → mem i = 0) :
    span mem off len = List.replicate len 0 := by
  apply List.ext_getElem
  · simp [span]
  · intro i hi _
    rw [span_length] at hi
    simpa [span] using h (off + i) (by omega) (by omega)

end Memory

theorem le16_length (v : Nat) : (le16 v).length = 2 := rfl

theorem rd16_le16 {data t : Bytes} {i v : Nat} (h : data.drop i = le16 v ++ t) (hv : v < 65536) :
    rd16 data i = .ok v := by
  unfold rd16
  rw [h]
  show Except.ok ((UInt8.ofNat v).toNat + 256 * (UInt8.ofNat (v / 256)).toNat) = _
  rw [UInt8.toNat_ofNat', UInt8.toNat_ofNat']
  congr 1
  omega

theorem drop_behind {data a b : Bytes} {i : Nat} (h : data.drop i = a ++ b) :
    data.drop (i + a.length) = b := by
  rw [← List.drop_drop, h, List.drop_left]

/-- The bytes of the attributes. -/
def Tree.bytes : Tree → Bytes
  | .nil => []
  | .leaf type payload rest =>
      le16 (4 + payload.length) ++ (le16 type.toNat ++ (payload ++
        (List.replicate (nlaAlign (4 + payload.length) - (4 + payload.length)) 0 ++ rest.bytes)))
  | .nest type inner rest =>
      le16 (4 + inner.bytes.length) ++ (le16 type.toNat ++ (inner.bytes ++ rest.bytes))

theorem le_nlaAlign (len : Nat) : len ≤ nlaAlign len := by
  unfold nlaAlign
  omega

theorem Tree.leaf_length (type : UInt16) (payload : Bytes) (rest : Tree) :
    (Tree.leaf type payload rest).bytes.length =
      nlaAlign (4 + payload.length) + rest.bytes.length := by
  have hle := le_nlaAlign (4 + payload.length)
  simp only [Tree.bytes, List.length_append, le16_length, List.length_replicate]
  omega

theorem Tree.nest_length (type : UInt16) (inner rest : Tree) :
    (Tree.nest type inner rest).bytes.length = 4 + inner.bytes.length + rest.bytes.length := by
  simp only [Tree.bytes, List.length_append, le16_length]
  omega

theorem Tree.aligned (tree : Tree) : tree.bytes.length % 4 = 0 := by
  induction tree with
  | nil => rfl
  | leaf type payload rest ih =>
    rw [Tree.leaf_length]
    unfold nlaAlign
    omega
  | nest type inner rest ihInner ih =>
    rw [Tree.nest_length]
    omega

theorem rest_length (a b : Nat) : ((a + b : Nat) : Int) - a = b := by
  omega

section Walk

variable {data : Bytes}

/-- An attribute that starts at `off` is met there, and the walk goes on behind it. -/
theorem seen_step {off len : Nat} {alen : Int} {type : UInt16} {t : Bytes}
    (h : data.drop off = le16 len ++ (le16 type.toNat ++ t)) (hlower : 4 ≤ len)
    (hupper : (len : Int) ≤ alen) (hlen : len < 65536) (rounds : Nat) (seen : List Seen) :
    eachAttr data (seenBody data) (rounds + 1) off alen seen =
      eachAttr data (seenBody data) rounds (off + nlaAlign len) (alen - nlaAlign len)
        (seen ++ [⟨off, len, type.toNat⟩]) := by
  have hok : nlaOk data off alen = .ok (some len) := by
    unfold nlaOk
    rw [if_neg (by omega), rd16_le16 h hlen]
    show Except.ok (if 4 ≤ len ∧ (len : Int) ≤ alen then some len else none) = _
    rw [if_pos ⟨hlower, hupper⟩]
  have htype : rd16 data (off + 2) = .ok type.toNat := rd16_le16 (drop_behind h) type.toNat_lt
  rw [eachAttr_some hok, seenBody, htype]
  rfl

theorem walk_bytes (tree : Tree) : ∀ (off : Nat) (post : Bytes) (rounds : Nat) (before : List Seen),
    data.drop off = tree.bytes ++ post → tree.bytes.length ≤ 65535 → tree.bytes.length < rounds →
      ∃ seen, eachAttr data (seenBody data) rounds off tree.bytes.length before =
        .ok (before ++ seen) ∧ Matches data tree seen := by
  induction tree with
  | nil =>
    intro off post rounds before _ _ hrounds
    obtain ⟨rounds, rfl⟩ := Nat.exists_eq_add_one.mpr (Nat.zero_lt_of_lt hrounds)
    refine ⟨[], ?_, rfl⟩
    rw [eachAttr_done rfl, List.append_nil]
  | leaf type payload rest ih =>
    intro off post rounds before hdata hsize hrounds
    have hle := le_nlaAlign (4 + payload.length)
    rw [Tree.leaf_length] at hsize hrounds ⊢
    obtain ⟨rounds, rfl⟩ := Nat.exists_eq_add_one.mpr (Nat.zero_lt_of_lt hrounds)
    simp only [Tree.bytes, List.append_assoc] at hdata
    have hpayload : data.drop (off + 2 + 2) = _ := drop_behind (drop_behind hdata)
    have hrest := drop_behind (drop_behind hpayload)
    have hoff : off + 2 + 2 + payload.length +
        (List.replicate (nlaAlign (4 + payload.length) - (4 + payload.length)) (0 : UInt8)).length =
          off + nlaAlign (4 + payload.length) := by
      rw [List.length_replicate]
      omega
    rw [hoff] at hrest
    obtain ⟨seen, hrun, hmatch⟩ := ih _ post rounds
      (before ++ [⟨off, 4 + payload.length, type.toNat⟩]) hrest (by omega) (by omega)
    refine ⟨⟨off, 4 + payload.length, type.toNat⟩ :: seen, ?_, rfl, ?_, hmatch⟩
    · rw [seen_step hdata (by omega) (by push_cast; omega) (by omega)]
      rw [rest_length, hrun, List.append_assoc]
      rfl
    · show (data.drop (off + 4)).take (4 + payload.length - 4) = payload
      rw [hpayload, Nat.add_sub_cancel_left, List.take_left]
  | nest type inner rest ihInner ih =>
    intro off post rounds before hdata hsize hrounds
    have haligned := inner.aligned
    have halign : nlaAlign (4 + inner.bytes.length) = 4 + inner.bytes.length := by
      unfold nlaAlign
      omega
    rw [Tree.nest_length] at hsize hrounds ⊢
    obtain ⟨rounds, rfl⟩ := Nat.exists_eq_add_one.mpr (Nat.zero_lt_of_lt hrounds)
    simp only [Tree.bytes, List.append_assoc] at hdata
    have hinner : data.drop (off + 2 + 2) = _ := drop_behind (drop_behind hdata)
    have hrest := drop_behind hinner
    have hoff : off + 2 + 2 + inner.bytes.length = off + nlaAlign (4 + inner.bytes.length) := by
      rw [halign]
      omega
    rw [hoff] at hrest
    obtain ⟨inside, hinside, hmatchInner⟩ := ihInner (off + 4) _ (inner.bytes.length + 1) [] hinner
      (by omega) (Nat.lt_succ_self _)
    obtain ⟨seen, hrun, hmatch⟩ := ih _ post rounds
      (before ++ [⟨off, 4 + inner.bytes.length, type.toNat⟩]) hrest (by omega) (by omega)
    refine ⟨⟨off, 4 + inner.bytes.length, type.toNat⟩ :: seen, ?_, rfl, ⟨inside, ?_, hmatchInner⟩,
      hmatch⟩
    · rw [seen_step hdata (by omega) (by push_cast; omega) (by omega)]
      rw [halign] at hrun ⊢
      rw [rest_length, hrun, List.append_assoc]
      rfl
    · have hlen : ((4 + inner.bytes.length : Nat) : Int) - 4 = inner.bytes.length := by omega
      unfold walkAttrs
      dsimp only
      rw [hlen]
      exact hinside

/-- A walk over the bytes of a tree yields the tree. -/
theorem yields_of_bytes {off : Nat} {tree : Tree} {post : Bytes}
    (h : data.drop off = tree.bytes ++ post) (hsize : tree.bytes.length ≤ 65535) :
    Yields data off tree.bytes.length tree := by
  obtain ⟨seen, hrun, hmatch⟩ := walk_bytes tree off post (tree.bytes.length + 1) [] h hsize
    (Nat.lt_succ_self _)
  exact ⟨seen, hrun, hmatch⟩

end Walk

section Written

variable {cap : Nat} {w : Writer}

/-- The call does not fit behind `off`. -/
def Put.Fits (cap : Nat) (call : Put) (off : Nat) : Prop :=
  4 + call.asked.data.length ≤ 65535 ∧ off + nlaAlign (4 + call.asked.data.length) ≤ cap

/-- The bytes from 0 on that the call may change besides its attribute. -/
def Put.low : Put → Nat
  | .string .. => 4
  | _ => 0

/-- What `netlink_put_attr` leaves: the attribute, with its padding as it was. -/
theorem putAttr_fits (attr : NlAttr) (hlen : 4 + attr.data.length ≤ 65535)
    (hfit : w.off + nlaAlign (4 + attr.data.length) ≤ cap) :
    ∃ mem, netlinkPutAttr cap attr w = (0, ⟨mem, w.off + nlaAlign (4 + attr.data.length)⟩) ∧
      span mem w.off (4 + attr.data.length) =
        le16 (4 + attr.data.length) ++ (le16 attr.type.toNat ++ attr.data) ∧
      ∀ i, i < w.off ∨ w.off + (4 + attr.data.length) ≤ i → mem i = w.mem i := by
  unfold netlinkPutAttr uint16Max
  rw [if_neg (by omega)]
  dsimp only
  rw [if_neg (by omega)]
  refine ⟨_, rfl, ?_, fun i hi => ?_⟩
  · have hsplit : 4 + attr.data.length = 2 + (2 + attr.data.length) := by omega
    rw [hsplit, span_add, span_add]
    congr 1
    · rw [span_putBytes_of_disjoint _ (Or.inl (by omega)),
        span_putBytes_of_disjoint _ (Or.inl (by omega))]
      exact span_putBytes_self _ _ (le16 _)
    · congr 1
      · rw [span_putBytes_of_disjoint _ (Or.inl (by omega))]
        exact span_putBytes_self _ _ (le16 _)
      · exact span_putBytes_self _ _ _
  · rw [putBytes_outside _ (by omega), putBytes_outside _ (by rw [le16_length]; omega),
      putBytes_outside _ (by rw [le16_length]; omega)]

theorem putAttr_fails (attr : NlAttr)
    (h : ¬ (4 + attr.data.length ≤ 65535 ∧ w.off + nlaAlign (4 + attr.data.length) ≤ cap)) :
    netlinkPutAttr cap attr w = (-1, w) := by
  unfold netlinkPutAttr uint16Max
  by_cases hlen : attr.data.length > 65535 - 4
  · rw [if_pos hlen]
  · rw [if_neg hlen]
    dsimp only
    rw [if_pos (by omega)]

/-- What a call that fits leaves, and what it leaves alone. -/
theorem Put.call_fits (call : Put) (h : call.Fits cap w.off) (hlow : call.low ≤ w.off) :
    ∃ mem, call.call cap w = (0, ⟨mem, w.off + nlaAlign (4 + call.asked.data.length)⟩) ∧
      span mem w.off (4 + call.asked.data.length) =
        le16 (4 + call.asked.data.length) ++ (le16 call.asked.type.toNat ++ call.asked.data) ∧
      ∀ i, call.low ≤ i → i < w.off ∨ w.off + (4 + call.asked.data.length) ≤ i →
        mem i = w.mem i := by
  obtain ⟨mem, hrun, hspan, hkeep⟩ := putAttr_fits call.asked h.1 h.2
  cases call with
  | attr a => exact ⟨mem, hrun, hspan, fun i _ => hkeep i⟩
  | u32 type val => exact ⟨mem, hrun, hspan, fun i _ => hkeep i⟩
  | string type val =>
    have hhead : ∀ v, (le32 v).length = 4 := fun _ => rfl
    have hlow : 4 ≤ w.off := hlow
    refine ⟨putBytes mem 0 (le32 (w.off + nlaAlign (4 + (withNul val).length))), ?_, ?_, ?_⟩
    · show netlinkPutString cap type val w = _
      unfold netlinkPutString
      dsimp only
      rw [show netlinkPutAttr cap ⟨UInt16.ofInt type, withNul val⟩ w = _ from hrun]
      rfl
    · rw [span_putBytes_of_disjoint _ (Or.inr (by rw [hhead]; omega))]
      exact hspan
    · intro i hi hout
      have hi : 4 ≤ i := hi
      rw [putBytes_outside _ (by rw [hhead]; omega)]
      exact hkeep i hout

theorem Put.call_fails (call : Put) (h : ¬ call.Fits cap w.off) : call.call cap w = (-1, w) := by
  have hfails : netlinkPutAttr cap call.asked w = (-1, w) := putAttr_fails call.asked h
  cases call with
  | attr a => exact hfails
  | u32 type val => exact hfails
  | string type val =>
    show netlinkPutString cap type val w = _
    unfold netlinkPutString
    dsimp only
    rw [show netlinkPutAttr cap ⟨UInt16.ofInt type, withNul val⟩ w = _ from hfails]
    rfl

theorem nestStart_fits (type : Int) (start : Nat) (h : w.off + 4 ≤ cap) :
    netlinkNestStart cap type w start =
      (0, ⟨putBytes w.mem (w.off + 2) (le16 (UInt16.ofInt type).toNat), w.off + 4⟩, w.off) := by
  unfold netlinkNestStart
  rw [if_neg (by omega)]

theorem nestStart_fails (type : Int) (start : Nat) (h : ¬ w.off + 4 ≤ cap) :
    netlinkNestStart cap type w start = (-1, w, start) := by
  unfold netlinkNestStart
  rw [if_pos (by omega)]

/-- The bytes from 0 on that the calls may change besides their attributes. -/
def Calls.low : Calls → Nat
  | .none => 0
  | .put call rest => max call.low rest.low
  | .nest _ inner rest => max inner.low rest.low

/-- What `netlink_nest_start` leaves. -/
def Writer.started (w : Writer) (type : Int) : Writer :=
  ⟨putBytes w.mem (w.off + 2) (le16 (UInt16.ofInt type).toNat), w.off + 4⟩

theorem Calls.run_nest (type : Int) (inner rest : Calls) (h : w.off + 4 ≤ cap) :
    (Calls.nest type inner rest).run cap w =
      rest.run cap (netlinkNestEnd w.off (inner.run cap (w.started type))) := by
  rw [Calls.run, nestStart_fits type 0 h]
  rfl

theorem Calls.made_nest (type : Int) (inner rest : Calls) (h : w.off + 4 ≤ cap) :
    (Calls.nest type inner rest).made cap w =
      .nest (UInt16.ofInt type) (inner.made cap (w.started type))
        (rest.made cap (netlinkNestEnd w.off (inner.run cap (w.started type)))) := by
  rw [Calls.made, nestStart_fits type 0 h]
  rfl

/-- What the calls have left: their attributes from `w.off` on, and everything else
as it was. -/
structure Written (cap low : Nat) (tree : Tree) (w w' : Writer) : Prop where
  off : w'.off = w.off + tree.bytes.length
  inside : w'.off ≤ cap
  span : span w'.mem w.off tree.bytes.length = tree.bytes
  keeps : ∀ i, low ≤ i → i < w.off ∨ w'.off ≤ i → w'.mem i = w.mem i

theorem Written.none (h : w.off ≤ cap) (low : Nat) : Written cap low .nil w w :=
  ⟨rfl, h, rfl, fun _ _ _ => rfl⟩

/-- A call that fits, and what is written behind its attribute. -/
theorem Written.put {call : Put} {mem : Mem} {tree : Tree} {w' : Writer} {low : Nat}
    (hzero : ∀ i, w.off ≤ i → i < cap → w.mem i = 0) (hclow : call.low ≤ low) (hlow : low ≤ w.off)
    (hspan : Net.span mem w.off (4 + call.asked.data.length) =
      le16 (4 + call.asked.data.length) ++ (le16 call.asked.type.toNat ++ call.asked.data))
    (hkeep : ∀ i, call.low ≤ i → i < w.off ∨ w.off + (4 + call.asked.data.length) ≤ i →
      mem i = w.mem i)
    (hrest : Written cap low tree ⟨mem, w.off + nlaAlign (4 + call.asked.data.length)⟩ w') :
    Written cap low (.leaf call.asked.type call.asked.data tree) w w' := by
  have hle := le_nlaAlign (4 + call.asked.data.length)
  have hoff := hrest.off
  have hinside := hrest.inside
  dsimp only at hoff
  refine ⟨?_, hinside, ?_, fun i hi hout => ?_⟩
  · rw [Tree.leaf_length]
    omega
  · have hbefore : ∀ i, w.off ≤ i → i < w.off + nlaAlign (4 + call.asked.data.length) →
        w'.mem i = mem i := fun i hi hlt => hrest.keeps i (by omega) (Or.inl hlt)
    have hsplit : nlaAlign (4 + call.asked.data.length) = (4 + call.asked.data.length) +
        (nlaAlign (4 + call.asked.data.length) - (4 + call.asked.data.length)) := by omega
    rw [Tree.leaf_length, span_add, hrest.span, span_congr hbefore, hsplit, span_add, hspan,
      span_zeros fun i hi hlt => ?_]
    · simp only [Tree.bytes, List.append_assoc]
    · rw [hkeep i (by omega) (Or.inr hi)]
      exact hzero i (by omega) (by omega)
  · rw [hrest.keeps i hi (by dsimp only; omega)]
    exact hkeep i (by omega) (by omega)

/-- A nest, what is written in it, and what is written behind it. -/
theorem Written.nest {type : Int} {inner tree : Tree} {w₁ w' : Writer} {low : Nat}
    (hlow : low ≤ w.off) (hcap : cap ≤ 65535)
    (hinner : Written cap low inner (w.started type) w₁)
    (hrest : Written cap low tree (netlinkNestEnd w.off w₁) w') :
    Written cap low (.nest (UInt16.ofInt type) inner tree) w w' := by
  have hsoff : (w.started type).off = w.off + 4 := rfl
  have hoff₁ : w₁.off = w.off + 4 + inner.bytes.length := hinner.off
  have hinside₁ := hinner.inside
  have hoff : w'.off = w₁.off + tree.bytes.length := hrest.off
  have hend : netlinkNestEnd w.off w₁ =
      ⟨putBytes w₁.mem w.off (le16 (4 + inner.bytes.length)), w₁.off⟩ := by
    unfold netlinkNestEnd
    rw [Nat.mod_eq_of_lt (by omega), hoff₁, Nat.add_assoc, Nat.add_sub_cancel_left]
  rw [hend] at hrest
  have hkeeps := hrest.keeps
  dsimp only at hkeeps
  refine ⟨?_, hrest.inside, ?_, fun i hi hout => ?_⟩
  · rw [Tree.nest_length]
    omega
  · have hbefore : ∀ i, w.off ≤ i → i < w.off + (2 + (2 + inner.bytes.length)) →
        w'.mem i = putBytes w₁.mem w.off (le16 (4 + inner.bytes.length)) i :=
      fun i hi hlt => hkeeps i (by omega) (Or.inl (by omega))
    have hsplit : 4 + inner.bytes.length = 2 + (2 + inner.bytes.length) := by omega
    have hbehind : w.off + (2 + (2 + inner.bytes.length)) = w₁.off := by omega
    have htail := hrest.span
    dsimp only at htail
    have hlen : Net.span (putBytes w₁.mem w.off (le16 (4 + inner.bytes.length))) w.off 2 =
        le16 (4 + inner.bytes.length) := span_putBytes_self _ _ (le16 _)
    have htype : Net.span w₁.mem (w.off + 2) 2 = le16 (UInt16.ofInt type).toNat := by
      rw [span_congr fun i hi hlt => hinner.keeps i (by omega) (Or.inl (by omega))]
      exact span_putBytes_self _ _ (le16 _)
    have hbody : Net.span w₁.mem (w.off + 2 + 2) inner.bytes.length = inner.bytes := hinner.span
    rw [Tree.nest_length, hsplit, span_add, span_congr hbefore, hbehind, htail, span_add, span_add,
      hlen, span_putBytes_of_disjoint _ (Or.inr (by rw [le16_length])),
      span_putBytes_of_disjoint _ (Or.inr (by rw [le16_length]; omega)), htype, hbody]
    simp only [Tree.bytes, List.append_assoc]
  · rw [hkeeps i hi (by omega), putBytes_outside _ (by rw [le16_length]; omega),
      hinner.keeps i hi (by omega)]
    exact putBytes_outside _ (by rw [le16_length]; omega)

/-- The calls leave the attributes of those that succeed. -/
theorem Calls.run_written (hcap : cap ≤ 65535) (calls : Calls) : ∀ (w : Writer) (low : Nat),
    w.off ≤ cap → (∀ i, w.off ≤ i → i < cap → w.mem i = 0) → calls.low ≤ low → low ≤ w.off →
      Written cap low (calls.made cap w) w (calls.run cap w) := by
  induction calls with
  | none => exact fun w low hoff _ _ _ => .none hoff low
  | put call rest ih =>
    intro w low hoff hzero hcalls hlow
    obtain ⟨hclow, hrlow⟩ := Nat.max_le.mp hcalls
    by_cases hfit : call.Fits cap w.off
    · obtain ⟨mem, hrun, hspan, hkeep⟩ := call.call_fits hfit (by omega)
      have hle := le_nlaAlign (4 + call.asked.data.length)
      rw [Calls.run, Calls.made, hrun]
      refine .put hzero hclow hlow hspan hkeep (ih _ low hfit.2 (fun i hi hlt => ?_) hrlow ?_)
      · dsimp only at hi ⊢
        rw [hkeep i (by omega) (Or.inr (by omega))]
        exact hzero i (by omega) hlt
      · dsimp only
        omega
    · rw [Calls.run, Calls.made, call.call_fails hfit]
      exact ih w low hoff hzero hrlow hlow
  | nest type inner rest ihInner ih =>
    intro w low hoff hzero hcalls hlow
    obtain ⟨hilow, hrlow⟩ := Nat.max_le.mp hcalls
    by_cases hfit : w.off + 4 ≤ cap
    · have hstarted : ∀ i, w.off + 4 ≤ i → (w.started type).mem i = w.mem i :=
        fun i hi => putBytes_outside _ (by rw [le16_length]; omega)
      have hsoff : (w.started type).off = w.off + 4 := rfl
      have hinner := ihInner (w.started type) low hfit
        (fun i hi hlt => by rw [hstarted i hi]; exact hzero i (by omega) hlt) hilow (by omega)
      have hoff₁ := hinner.off
      have hend : ∀ i, w.off + 2 ≤ i →
          (netlinkNestEnd w.off (inner.run cap (w.started type))).mem i =
            (inner.run cap (w.started type)).mem i :=
        fun i hi => putBytes_outside _ (Or.inr hi)
      have heoff : (netlinkNestEnd w.off (inner.run cap (w.started type))).off =
        (inner.run cap (w.started type)).off := rfl
      rw [Calls.run_nest type inner rest hfit, Calls.made_nest type inner rest hfit]
      refine .nest hlow hcap hinner (ih _ low hinner.inside (fun i hi hlt => ?_) hrlow (by omega))
      rw [hend i (by omega), hinner.keeps i (by omega) (Or.inr (by omega)), hstarted i (by omega)]
      exact hzero i (by omega) hlt
    · rw [Calls.run, Calls.made, nestStart_fails type 0 hfit]
      exact ih w low hoff hzero hrlow hlow

/-- A walk over what is written. -/
theorem Written.walk {low : Nat} {tree : Tree} {w' : Writer} (h : Written cap low tree w w')
    (hcap : cap ≤ 65535) : Yields (Net.span w'.mem 0 cap) w.off ((w'.off : Int) - w.off) tree := by
  have hoff := h.off
  have hinside := h.inside
  have hlen : (w'.off : Int) - w.off = tree.bytes.length := by omega
  have hsplit : cap = w.off + (tree.bytes.length + (cap - w'.off)) := by omega
  have hdata : (Net.span w'.mem 0 cap).drop w.off =
      tree.bytes ++ Net.span w'.mem w'.off (cap - w'.off) := by
    rw [hsplit, span_add, span_add, Nat.zero_add, h.span, ← hoff, ← hsplit]
    exact List.drop_left' (span_length _ 0 w.off)
  rw [hlen]
  exact yields_of_bytes hdata (by omega)

/-- Whether one of the calls is `netlink_put_string`. -/
def Calls.putsString : Calls → Prop
  | .none => False
  | .put (.string ..) _ => True
  | .put _ rest => rest.putsString
  | .nest _ inner rest => inner.putsString ∨ rest.putsString

theorem Calls.low_le {calls : Calls} {off : Nat} (h : calls.putsString → 4 ≤ off) :
    calls.low ≤ off := by
  induction calls with
  | none => exact Nat.zero_le off
  | put call rest ih =>
    cases call with
    | attr a => exact Nat.max_le.mpr ⟨Nat.zero_le off, ih h⟩
    | u32 type val => exact Nat.max_le.mpr ⟨Nat.zero_le off, ih h⟩
    | string type val =>
      have hoff : 4 ≤ off := h trivial
      exact Nat.max_le.mpr ⟨hoff, ih fun _ => hoff⟩
  | nest type inner rest ihInner ih =>
    exact Nat.max_le.mpr ⟨ihInner fun hi => h (Or.inl hi), ih fun hr => h (Or.inr hr)⟩

/-- A call succeeds when it fits, and otherwise does nothing at all. -/
structure Refuses (cap : Nat) : Prop where
  put : ∀ (call : Put) (w : Writer), (call.Fits cap w.off → (call.call cap w).1 = 0) ∧
    (¬ call.Fits cap w.off → call.call cap w = (-1, w))
  nest : ∀ (type : Int) (w : Writer) (start : Nat),
    (w.off + 4 ≤ cap → (netlinkNestStart cap type w start).1 = 0) ∧
      (¬ w.off + 4 ≤ cap → netlinkNestStart cap type w start = (-1, w, start))

theorem Put.call_fits_ok (call : Put) (w : Writer) (h : call.Fits cap w.off) :
    (call.call cap w).1 = 0 := by
  obtain ⟨mem, hrun, -, -⟩ := putAttr_fits call.asked h.1 h.2
  cases call with
  | attr a => exact congrArg Prod.fst hrun
  | u32 type val => exact congrArg Prod.fst hrun
  | string type val =>
    show (netlinkPutString cap type val w).1 = 0
    unfold netlinkPutString
    dsimp only
    rw [show netlinkPutAttr cap ⟨UInt16.ofInt type, withNul val⟩ w = _ from hrun]
    rfl

theorem refuses (cap : Nat) : Refuses cap where
  put call w := ⟨call.call_fits_ok w, call.call_fails⟩
  nest type w start :=
    ⟨fun h => by rw [nestStart_fits type start h], nestStart_fails type start⟩

/-- A walk over what the calls have written yields the attributes of those that
succeeded. -/
def WalkAgrees (cap start : Nat) (mem : Mem) (calls : Calls) : Prop :=
  let w := calls.run cap ⟨mem, start⟩
  Yields (span w.mem 0 cap) start ((w.off : Int) - start) (calls.made cap ⟨mem, start⟩)

theorem writer_reader_agree (cap start : Nat) (mem : Mem) (calls : Calls) (hcap : cap ≤ 65535)
    (hstart : start ≤ cap) (halign : start % 4 = 0) (hzero : ∀ i, i < cap → mem i = 0)
    (hhead : calls.putsString → start ≠ 0) :
    WalkAgrees cap start mem calls ∧ Refuses cap ∧
      ∀ i, cap ≤ i → (calls.run cap ⟨mem, start⟩).mem i = mem i := by
  have hlow : calls.low ≤ start := Calls.low_le fun h => by
    have hne := hhead h
    omega
  have hwritten := calls.run_written hcap ⟨mem, start⟩ start hstart (fun i _ => hzero i) hlow
    (Nat.le_refl start)
  have hinside := hwritten.inside
  exact ⟨hwritten.walk hcap, refuses cap,
    fun i hi => hwritten.keeps i (by omega) (Or.inr (by omega))⟩

/-- A name, and a kind in a nest behind it. -/
def linkCalls : Calls :=
  .put (.string 3 (lit "e0")) (.nest 18 (.put (.string 1 (lit "veth")) .none) .none)

theorem writer_reader_agree_link :
    (linkCalls.made 64 ⟨fun _ => 0, 16⟩ = .leaf 3 [101, 48, 0]
      (.nest 18 (.leaf 1 [118, 101, 116, 104, 0] .nil) .nil)) ∧
      WalkAgrees 64 16 (fun _ => 0) linkCalls :=
  ⟨rfl, (writer_reader_agree 64 16 (fun _ => 0) linkCalls (by decide) (by decide) (by decide)
    (fun _ _ => rfl) (fun _ => by decide)).1⟩

/-- At the beginning of the buffer `netlink_put_string` writes the length of the
message over the header of its own attribute. -/
theorem writer_reader_differ :
    ¬ ∀ (cap start : Nat) (mem : Mem) (calls : Calls), cap ≤ 65535 → start ≤ cap → start % 4 = 0 →
      (∀ i, i < cap → mem i = 0) → WalkAgrees cap start mem calls := by
  intro h
  obtain ⟨seen, hwalk, hmatch⟩ := h 16 0 (fun _ => 0) (.put (.string 3 (lit "e0")) .none) (by decide)
    (by decide) (by decide) fun _ _ => rfl
  have hseen : walkAttrs [8, 0, 0, 0, 101, 48, 0, 0, 0, 0, 0, 0, 0, 0, 0, 0] 0 8 = .ok [⟨0, 8, 0⟩] := rfl
  have heq := hseen.symm.trans hwalk
  cases heq
  exact absurd hmatch.1 (by decide)

end Written

end Cage.Net
