import Cage.Net.Reader

/-!
The functions of `src/net/netlink.c` that put attributes into a message. The
memory goes on behind the buffer, so that a write there would be seen.
-/

namespace Cage.Net

open Util

abbrev Mem := Nat → UInt8

/-- `memcpy(mem + off, d, ...)`. -/
def putBytes (mem : Mem) (off : Nat) (d : Bytes) : Mem := fun i =>
  if off ≤ i ∧ i < off + d.length then d.getD (i - off) 0 else mem i

/-- The `len` bytes at `mem + off`. -/
def span (mem : Mem) (off len : Nat) : Bytes := (List.range len).map fun i => mem (off + i)

def le16 (v : Nat) : Bytes := [UInt8.ofNat v, UInt8.ofNat (v / 256)]

def le32 (v : Nat) : Bytes := le16 v ++ le16 (v / 65536)

/-- A buffer and the offset `off` that its message has reached. -/
structure Writer where
  mem : Mem
  off : Nat

/-- `struct nl_attr`. -/
structure NlAttr where
  type : UInt16
  data : Bytes

def uint16Max : Nat := 65535

def netlinkPutAttr (cap : Nat) (attr : NlAttr) (w : Writer) : Int × Writer :=
  if attr.data.length > uint16Max - 4 then (-1, w)
  else
    let alen := nlaAlign (4 + attr.data.length)
    if w.off > cap ∨ alen > cap - w.off then (-1, w)
    else
      let mem := putBytes w.mem w.off (le16 (4 + attr.data.length))
      let mem := putBytes mem (w.off + 2) (le16 attr.type.toNat)
      (0, ⟨putBytes mem (w.off + 4) attr.data, w.off + alen⟩)

/-- A C string as it stands in memory. -/
def withNul (val : CStr) : Bytes := val ++ [0]

/-- `netlink_put_string`, which also brings `nlmsg_len` up to date. -/
def netlinkPutString (cap : Nat) (type : Int) (val : CStr) (w : Writer) : Int × Writer :=
  let r := netlinkPutAttr cap ⟨UInt16.ofInt type, withNul val⟩ w
  if r.1 ≠ 0 then (-1, r.2) else (0, ⟨putBytes r.2.mem 0 (le32 r.2.off), r.2.off⟩)

def netlinkPutU32 (cap : Nat) (type : Int) (val : UInt32) (w : Writer) : Int × Writer :=
  netlinkPutAttr cap ⟨UInt16.ofInt type, le32 val.toNat⟩ w

/-- `netlink_nest_start`, with `start` last. -/
def netlinkNestStart (cap : Nat) (type : Int) (w : Writer) (start : Nat) : Int × Writer × Nat :=
  if w.off + 4 > cap then (-1, w, start)
  else (0, ⟨putBytes w.mem (w.off + 2) (le16 (UInt16.ofInt type).toNat), w.off + 4⟩, w.off)

def netlinkNestEnd (start : Nat) (w : Writer) : Writer :=
  ⟨putBytes w.mem start (le16 ((w.off - start) % 2 ^ 16)), w.off⟩

inductive Put where
  | attr (attr : NlAttr)
  | u32 (type : Int) (val : UInt32)
  | string (type : Int) (val : CStr)

def Put.call (cap : Nat) : Put → Writer → Int × Writer
  | .attr a => netlinkPutAttr cap a
  | .u32 type val => netlinkPutU32 cap type val
  | .string type val => netlinkPutString cap type val

/-- The attribute that is asked for. -/
def Put.asked : Put → NlAttr
  | .attr a => a
  | .u32 type val => ⟨UInt16.ofInt type, le32 val.toNat⟩
  | .string type val => ⟨UInt16.ofInt type, withNul val⟩

/-- A well-nested sequence of calls: every `netlink_nest_start` has the calls up to
its `netlink_nest_end`, and those behind it. -/
inductive Calls where
  | none
  | put (call : Put) (rest : Calls)
  | nest (type : Int) (inner rest : Calls)

/-- The calls in order. Those of a nest that does not start are left out. -/
def Calls.run (cap : Nat) : Calls → Writer → Writer
  | .none, w => w
  | .put call rest, w => rest.run cap (call.call cap w).2
  | .nest type inner rest, w =>
      let r := netlinkNestStart cap type w 0
      if r.1 < 0 then rest.run cap r.2.1
      else rest.run cap (netlinkNestEnd r.2.2 (inner.run cap r.2.1))

/-- Attributes beside and inside each other. -/
inductive Tree where
  | nil
  | leaf (type : UInt16) (payload : Bytes) (rest : Tree)
  | nest (type : UInt16) (inner rest : Tree)
  deriving DecidableEq, Repr

/-- The attributes of the calls that succeed. -/
def Calls.made (cap : Nat) : Calls → Writer → Tree
  | .none, _ => .nil
  | .put call rest, w =>
      let r := call.call cap w
      if r.1 = 0 then .leaf call.asked.type call.asked.data (rest.made cap r.2)
      else rest.made cap r.2
  | .nest type inner rest, w =>
      let r := netlinkNestStart cap type w 0
      if r.1 < 0 then rest.made cap r.2.1
      else .nest (UInt16.ofInt type) (inner.made cap r.2.1)
        (rest.made cap (netlinkNestEnd r.2.2 (inner.run cap r.2.1)))

/-- An attribute that a loop has met. -/
structure Seen where
  off : Nat
  len : Nat
  type : Nat
  deriving DecidableEq, Repr

def seenBody (data : Bytes) (off len : Nat) (seen : List Seen) : Rd (List Seen × Bool) := do
  let type ← rd16 data (off + 2)
  pure (seen ++ [⟨off, len, type⟩], false)

/-- The attributes that `NLA_OK` and `NLA_NEXT` lead to. -/
def walkAttrs (data : Bytes) (off : Nat) (alen : Int) : Rd (List Seen) :=
  eachAttr data (seenBody data) (alen.toNat + 1) off alen []

/-- `NLA_DATA`, as long as the attribute is. -/
def Seen.payload (data : Bytes) (s : Seen) : Bytes := (data.drop (s.off + 4)).take (s.len - 4)

/-- The attributes met are those of the tree, and so are the ones met inside them. -/
def Matches (data : Bytes) : Tree → List Seen → Prop
  | .nil, seen => seen = []
  | .leaf .., [] => False
  | .leaf type payload rest, s :: seen =>
      s.type = type.toNat ∧ s.payload data = payload ∧ Matches data rest seen
  | .nest .., [] => False
  | .nest type inner rest, s :: seen =>
      s.type = type.toNat ∧
        (∃ inside, walkAttrs data (s.off + 4) (s.len - 4) = .ok inside ∧ Matches data inner inside) ∧
        Matches data rest seen

/-- Walking the attributes from `off` on yields the tree. -/
def Yields (data : Bytes) (off : Nat) (alen : Int) (tree : Tree) : Prop :=
  ∃ seen, walkAttrs data off alen = .ok seen ∧ Matches data tree seen

end Cage.Net
