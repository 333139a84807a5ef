import Cage.Net.Socket
import Cage.Net.WriterRead

/-!
The links of the host, and their list as the kernel sends it: one message for each
link and a last one, divided into datagrams. The loops over messages and attributes
follow the list.
-/

namespace Cage.Net

open Util

/-- A loop over a list that its step may leave. -/
def runAll {A S : Type} (step : A → S → S × Bool) : List A → S → S
  | [], s => s
  | a :: as, s => if (step a s).2 then (step a s).1 else runAll step as (step a s).1

def NlAttr.bytes (a : NlAttr) : Bytes :=
  le16 (4 + a.data.length) ++ (le16 a.type.toNat ++ (a.data ++
    List.replicate (nlaAlign (4 + a.data.length) - (4 + a.data.length)) 0))

theorem NlAttr.bytes_length (a : NlAttr) : a.bytes.length = nlaAlign (4 + a.data.length) := by
  have hle := le_nlaAlign (4 + a.data.length)
  simp only [NlAttr.bytes, List.length_append, le16_length, List.length_replicate]
  omega

/-- An attribute can be sent. -/
def NlAttr.Fits (a : NlAttr) : Prop := 4 + a.data.length ≤ 65535

/-- A message: its type, the rest of its header, and what it carries. -/
structure Msg where
  type : UInt16
  head : Bytes
  body : Bytes
  head_length : head.length = 10
  aligned : body.length % 4 = 0
  small : body.length < 2 ^ 31

def Msg.bytes (m : Msg) : Bytes :=
  le32 (16 + m.body.length) ++ (le16 m.type.toNat ++ (m.head ++ m.body))

theorem le32_length (v : Nat) : (le32 v).length = 4 := rfl

theorem Msg.bytes_length (m : Msg) : m.bytes.length = 16 + m.body.length := by
  simp only [Msg.bytes, List.length_append, le32_length, le16_length, m.head_length]
  omega

/-- A link: the parts of its message. -/
structure Link where
  index : UInt32
  name : CStr
  head : Bytes
  kind : Bytes
  flags : Bytes
  before : List NlAttr
  after : List NlAttr
  head_length : head.length = 10
  kind_length : kind.length = 4
  flags_length : flags.length = 8
  name_ends : (0 : UInt8) ∉ name
  others : ∀ a ∈ before ++ after, a.type.toNat ≠ iflaIfname ∧ a.Fits
  name_fits : 5 + name.length ≤ 65535
  small : ((before ++ after).flatMap NlAttr.bytes).length < 2 ^ 30

namespace Link

def nameAttr (l : Link) : NlAttr := ⟨UInt16.ofNat iflaIfname, withNul l.name⟩

def attrs (l : Link) : List NlAttr := l.before ++ l.nameAttr :: l.after

def body (l : Link) : Bytes :=
  l.kind ++ (le32 l.index.toNat ++ (l.flags ++ l.attrs.flatMap NlAttr.bytes))

theorem attrs_fit (l : Link) : ∀ a ∈ l.attrs, a.Fits := by
  intro a ha
  rcases List.mem_append.mp ha with hbefore | hrest
  · exact (l.others a (List.mem_append_left _ hbefore)).2
  · rcases List.mem_cons.mp hrest with rfl | hafter
    · have hfits := l.name_fits
      unfold NlAttr.Fits nameAttr withNul
      simp only [List.length_append, List.length_singleton]
      omega
    · exact (l.others a (List.mem_append_right _ hafter)).2

theorem attrs_aligned (as : List NlAttr) : (as.flatMap NlAttr.bytes).length % 4 = 0 := by
  induction as with
  | nil => rfl
  | cons a as ih =>
    rw [List.flatMap_cons, List.length_append, NlAttr.bytes_length]
    unfold nlaAlign
    omega

theorem body_length (l : Link) : l.body.length = 16 + (l.attrs.flatMap NlAttr.bytes).length := by
  simp only [body, List.length_append, le32_length, l.kind_length, l.flags_length]
  omega

theorem attrs_small (l : Link) : (l.attrs.flatMap NlAttr.bytes).length < 2 ^ 31 - 16 := by
  have hsmall := l.small
  have hname := l.nameAttr.bytes_length
  have hfits := l.name_fits
  have hlen : l.nameAttr.data.length = l.name.length + 1 := List.length_append
  unfold nlaAlign at hname
  simp only [attrs, List.flatMap_append, List.flatMap_cons, List.length_append] at hsmall ⊢
  omega

/-- The message that lists the link. -/
def msg (l : Link) : Msg where
  type := UInt16.ofNat rtmNewlink
  head := l.head
  body := l.body
  head_length := l.head_length
  aligned := by
    have haligned := attrs_aligned l.attrs
    rw [body_length]
    omega
  small := by
    have hsmall := l.attrs_small
    rw [body_length]
    omega

end Link

/-- A message of a list: a link, or the end of the list. -/
inductive Entry where
  | link (l : Link)
  | done (m : Msg) (h : m.type.toNat = nlmsgDone)

def Entry.msg : Entry → Msg
  | .link l => l.msg
  | .done m _ => m

def entryBytes (es : List Entry) : Bytes := es.flatMap fun e => e.msg.bytes

def linkBytes (ls : List Link) : Bytes := entryBytes (ls.map .link)

/-- The kernel's list of the links, in datagrams: each of those before the last has
some links, and the last one ends with the end of the list. -/
structure Dump where
  earlier : List (List Link)
  final : List Link
  last : Msg
  isDone : last.type.toNat = nlmsgDone
  nonempty : ∀ ls ∈ earlier, ls ≠ []
  distinct : ((earlier.flatten ++ final).map Link.name).Nodup

namespace Dump

def links (d : Dump) : List Link := d.earlier.flatten ++ d.final

def finalEntries (d : Dump) : List Entry := d.final.map .link ++ [.done d.last d.isDone]

def datagrams (d : Dump) : List Bytes := d.earlier.map linkBytes ++ [entryBytes d.finalEntries]

end Dump

section Loops

variable {S : Type} {data : Bytes}

/-- The entries that end within the first `k` bytes. -/
def visible : Nat → List Entry → List Entry
  | _, [] => []
  | k, e :: es =>
      if e.msg.bytes.length ≤ k then e :: visible (k - e.msg.bytes.length) es else []

theorem rd32_le32 {t : Bytes} {i v : Nat} (h : data.drop i = le32 v ++ t) (hv : v < 2 ^ 32) :
    rd32 data i = .ok v := by
  unfold rd32
  rw [h]
  show Except.ok ((UInt8.ofNat v).toNat + 256 * (UInt8.ofNat (v / 256)).toNat +
    65536 * (UInt8.ofNat (v / 65536)).toNat +
    16777216 * (UInt8.ofNat (v / 65536 / 256)).toNat) = _
  simp only [UInt8.toNat_ofNat']
  congr 1
  omega

/-- A whole message at `off`. -/
theorem nlmsgOk_msg {off rem : Nat} {m : Msg} {t : Bytes} (h : data.drop off = m.bytes ++ t)
    (hrem : m.bytes.length ≤ rem) : nlmsgOk data off rem = .ok (some (16 + m.body.length)) := by
  rw [Msg.bytes_length] at hrem
  have hsmall := m.small
  have hlen : rd32 data off = .ok (16 + m.body.length) := by
    refine rd32_le32 (t := le16 m.type.toNat ++ (m.head ++ m.body) ++ t) ?_ (by omega)
    rw [h, Msg.bytes, List.append_assoc]
  unfold nlmsgOk nlmsgHdrLen
  rw [if_neg (by omega), hlen]
  show Except.ok (if 16 ≤ 16 + m.body.length ∧ 16 + m.body.length ≤ rem then some _ else none) = _
  rw [if_pos (by omega)]

/-- A message of which the buffer holds only the beginning. -/
theorem nlmsgOk_cut {off rem : Nat} {m : Msg} (h : data.drop off = m.bytes.take rem)
    (hrem : rem < m.bytes.length) : nlmsgOk data off rem = .ok none := by
  rw [Msg.bytes_length] at hrem
  have hsmall := m.small
  unfold nlmsgOk nlmsgHdrLen
  by_cases hshort : rem < 16
  · rw [if_pos hshort]
    rfl
  · have hlen : rd32 data off = .ok (16 + m.body.length) := by
      obtain ⟨k, rfl⟩ : ∃ k, rem = 4 + k := ⟨rem - 4, by omega⟩
      refine rd32_le32 (t := (le16 m.type.toNat ++ (m.head ++ m.body)).take k) ?_ (by omega)
      rw [h, Msg.bytes, List.take_append, le32_length, Nat.add_sub_cancel_left]
      rw [List.take_of_length_le (by rw [le32_length]; omega)]
    rw [if_neg hshort, hlen]
    show Except.ok (if 16 ≤ 16 + m.body.length ∧ 16 + m.body.length ≤ rem then some _ else none) = _
    rw [if_neg (by omega)]

theorem nlmsgAlign_msg (m : Msg) : nlmsgAlign (16 + m.body.length) = m.bytes.length := by
  have hsmall := m.small
  have haligned := m.aligned
  rw [nlmsgAlign_eq (by omega), Msg.bytes_length]
  omega

/-- The loop over the messages of a list that is cut after `k` bytes. -/
theorem eachMsg_visible {body : Nat → Nat → S → Rd (S × Bool)} {step : Entry → S → S × Bool}
    (hbody : ∀ (e : Entry) (off : Nat) (t : Bytes) (s : S), data.drop off = e.msg.bytes ++ t →
      body off (16 + e.msg.body.length) s = .ok (step e s)) (es : List Entry) :
    ∀ (k off rounds : Nat) (s : S), data.drop off = (entryBytes es).take k →
      (data.drop off).length < 2 ^ 64 → (visible k es).length < rounds →
        eachMsg data body rounds off (data.drop off).length s =
          .ok (runAll step (visible k es) s) := by
  induction es with
  | nil =>
    intro k off rounds s hdata _ hrounds
    obtain ⟨rounds, rfl⟩ := Nat.exists_eq_add_one.mpr (Nat.zero_lt_of_lt hrounds)
    refine eachMsg_done ?_ rounds s
    rw [hdata]
    simp [entryBytes, nlmsgOk, nlmsgHdrLen]
    rfl
  | cons e es ih =>
    intro k off rounds s hdata hsize hrounds
    obtain ⟨rounds, rfl⟩ := Nat.exists_eq_add_one.mpr (Nat.zero_lt_of_lt hrounds)
    rw [entryBytes, List.flatMap_cons] at hdata
    by_cases hfit : e.msg.bytes.length ≤ k
    · rw [List.take_append, List.take_of_length_le hfit] at hdata
      have hrest : data.drop (off + e.msg.bytes.length) =
          (entryBytes es).take (k - e.msg.bytes.length) := drop_behind hdata
      have hlen : (data.drop off).length =
          e.msg.bytes.length + (data.drop (off + e.msg.bytes.length)).length := by
        rw [hrest, hdata, List.length_append]
        rfl
      have hnext : nlmsgNext (data.drop off).length (16 + e.msg.body.length) =
          (data.drop (off + e.msg.bytes.length)).length := by
        unfold nlmsgNext
        rw [nlmsgAlign_msg]
        omega
      rw [visible, if_pos hfit] at hrounds
      rw [eachMsg_some (nlmsgOk_msg hdata (by omega)), hbody e off _ s hdata, nlmsgAlign_msg, hnext,
        visible, if_pos hfit, runAll]
      show (if (step e s).2 = true then _ else _) = _
      by_cases hleave : (step e s).2 = true
      · rw [if_pos hleave, if_pos hleave]
        rfl
      · rw [if_neg hleave, if_neg hleave]
        exact ih _ _ rounds _ hrest (by omega) (Nat.lt_of_succ_lt_succ hrounds)
    · have hshort : k ≤ e.msg.bytes.length := by omega
      rw [List.take_append_of_le_length hshort] at hdata
      have hlen : (data.drop off).length = k := by
        rw [hdata, List.length_take, Nat.min_eq_left hshort]
      rw [hlen, eachMsg_done (nlmsgOk_cut hdata (by omega)), visible, if_neg hfit]
      rfl

/-- What the readers find of an attribute: its length, its type and its data. -/
theorem NlAttr.read_at {off : Nat} {u : Bytes} (a : NlAttr) (h : data.drop off = a.bytes ++ u)
    (hfit : a.Fits) : rd16 data off = .ok (4 + a.data.length) ∧
      rd16 data (off + 2) = .ok a.type.toNat ∧ ∃ t, data.drop (off + 4) = a.data ++ t := by
  unfold NlAttr.Fits at hfit
  simp only [NlAttr.bytes, List.append_assoc] at h
  have htype := drop_behind h
  exact ⟨rd16_le16 h (by omega), rd16_le16 htype a.type.toNat_lt, _, drop_behind htype⟩

/-- The loop over attributes. -/
theorem eachAttr_all {body : Nat → Nat → S → Rd (S × Bool)} {step : NlAttr → S → S × Bool}
    (as : List NlAttr) : ∀ (off rounds : Nat) (t : Bytes) (s : S),
      (∀ a ∈ as, a.Fits) → (∀ a ∈ as, ∀ (o : Nat) (u : Bytes) (s : S),
        data.drop o = a.bytes ++ u → body o (4 + a.data.length) s = .ok (step a s)) →
      data.drop off = as.flatMap NlAttr.bytes ++ t → as.length < rounds →
        eachAttr data body rounds off ((as.flatMap NlAttr.bytes).length : Nat) s =
          .ok (runAll step as s) := by
  induction as with
  | nil =>
    intro off rounds t s _ _ _ hrounds
    obtain ⟨rounds, rfl⟩ := Nat.exists_eq_add_one.mpr (Nat.zero_lt_of_lt hrounds)
    exact eachAttr_done rfl rounds s
  | cons a as ih =>
    intro off rounds t s hfits hbody hdata hrounds
    obtain ⟨rounds, rfl⟩ := Nat.exists_eq_add_one.mpr (Nat.zero_lt_of_lt hrounds)
    have hfit : 4 + a.data.length ≤ 65535 := hfits a List.mem_cons_self
    have hle := le_nlaAlign (4 + a.data.length)
    rw [List.flatMap_cons, List.append_assoc] at hdata
    have hrest : data.drop (off + nlaAlign (4 + a.data.length)) = as.flatMap NlAttr.bytes ++ t := by
      rw [← NlAttr.bytes_length]
      exact drop_behind hdata
    have hok : nlaOk data off (((a :: as).flatMap NlAttr.bytes).length : Nat) =
        .ok (some (4 + a.data.length)) := by
      have hlen := (a.read_at hdata hfit).1
      rw [List.flatMap_cons, List.length_append, NlAttr.bytes_length]
      unfold nlaOk
      rw [if_neg (by omega), hlen]
      show Except.ok (if _ ∧ _ then some _ else none) = _
      rw [if_pos (by omega)]
    rw [eachAttr_some hok, hbody a List.mem_cons_self off _ s hdata, runAll, List.flatMap_cons,
      List.length_append, NlAttr.bytes_length, rest_length]
    show (if (step a s).2 = true then _ else _) = _
    by_cases hleave : (step a s).2 = true
    · rw [if_pos hleave, if_pos hleave]
      rfl
    · rw [if_neg hleave, if_neg hleave]
      exact ih _ rounds t _ (fun b hb => hfits b (List.mem_cons_of_mem a hb))
        (fun b hb => hbody b (List.mem_cons_of_mem a hb)) hrest (Nat.lt_of_succ_lt_succ hrounds)

end Loops

end Cage.Net
