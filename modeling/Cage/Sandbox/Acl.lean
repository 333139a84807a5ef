import Mathlib.Data.List.Basic
import Cage.Util.CStr

/-!
`src/sandbox/acl.c`: the access control list by which the user of a cage may write to a
socket of the host. The list goes to the kernel as the bytes of a `struct acl_ent`; what
the kernel makes of them, and whom it then lets write, is beside it.
-/

namespace Cage.Sandbox.Acl

/-- What `fstat` tells of an open file, and its `system.posix_acl_access`. -/
structure Inode where
  sock : Bool
  uid : UInt32
  gid : UInt32
  mode : Nat
  acl : Option (List UInt8)
  deriving DecidableEq, Repr

/-- Which of the calls succeed. -/
structure AclHost where
  opens : Bool
  stats : Bool
  sets : Bool
  deriving DecidableEq, Repr

def sIwusr : Nat := 0o200
def sIwgrp : Nat := 0o020
def sIwoth : Nat := 0o002

section Code

variable (h : AclHost) (i : Inode) (uid gid : UInt32) (groups : List UInt32)

def matchGrp : Bool := groups.any fun g => i.gid = g ∧ i.mode &&& sIwgrp ≠ 0

def aclSkip : Bool :=
  if i.uid = uid ∧ i.mode &&& sIwusr ≠ 0 then true
  else if i.gid = gid ∧ i.mode &&& sIwgrp ≠ 0 then true
  else matchGrp i groups

/-- `acl_tmpl`, the version and the half words of the entries. -/
def aclTmpl : Nat × List Nat := (2, [1, 6, 0, 0, 2, 6, 0, 0, 4, 6, 0, 0, 16, 6, 0, 0, 32, 6, 0, 0])

/-- `memcpy(a.e + 6, &uid, 4)` -/
def withUid (e : List Nat) : List Nat :=
  e.take 6 ++ [uid.toNat % 2 ^ 16, uid.toNat / 2 ^ 16] ++ e.drop 8

def le16 (w : Nat) : List UInt8 := [UInt8.ofNat (w % 256), UInt8.ofNat (w / 256)]

/-- The memory of the `struct acl_ent`. -/
def aclBytes : List UInt8 :=
  le16 (aclTmpl.1 % 2 ^ 16) ++ le16 (aclTmpl.1 / 2 ^ 16) ++ (withUid uid aclTmpl.2).flatMap le16

def aclSetFd : Int × Inode :=
  if h.stats = false then (-1, i)
  else if i.sock = false then (0, i)
  else if uid = 0 ∨ aclSkip i uid gid groups then (0, i)
  else if h.sets then (0, { i with acl := some (aclBytes uid) })
  else (-1, i)

/-- The socket is opened with `O_NOFOLLOW`. -/
def aclSet : Int × Inode :=
  if h.opens = false then (-1, i) else aclSetFd h i uid gid groups

def aclGuestSet : Int × Inode := aclSet h i uid gid groups

end Code

section Kernel

/-- An entry of a list; the id is that of a named user or group. -/
structure AclEntry where
  tag : Nat
  perm : Nat
  id : UInt32
  deriving DecidableEq, Repr

def aclUserObj : Nat := 1
def aclUser : Nat := 2
def aclGroupObj : Nat := 4
def aclGroup : Nat := 8
def aclMask : Nat := 16
def aclOther : Nat := 32

def rd16 (a b : UInt8) : Nat := a.toNat + 256 * b.toNat

/-- The entries of the attribute, eight bytes each. -/
def readEntries : List UInt8 → Option (List AclEntry)
  | [] => some []
  | t :: t' :: p :: p' :: a :: b :: c :: d :: rest =>
      (readEntries rest).map
        (⟨rd16 t t', rd16 p p', UInt32.ofNat (rd16 a b + 2 ^ 16 * rd16 c d)⟩ :: ·)
  | _ => none

/-- The attribute begins with its version. -/
def readAcl : List UInt8 → Option (List AclEntry)
  | a :: b :: c :: d :: rest =>
      if rd16 a b + 2 ^ 16 * rd16 c d = 2 then readEntries rest else none
  | _ => none

/-- Who asks, as the kernel sees it. -/
structure Caller where
  uid : UInt32
  gid : UInt32
  groups : List UInt32
  deriving DecidableEq, Repr

def Caller.In (c : Caller) (g : UInt32) : Bool := g = c.gid ∨ g ∈ c.groups

def AclEntry.Writes (e : AclEntry) (mask : Nat) : Bool := e.perm &&& mask &&& 2 ≠ 0

/-- Whom a list lets write: the owner's entry counts for the owner alone, then that of a
named user, then those of the groups, and last that of everybody else. -/
def aclWrites (l : List AclEntry) (i : Inode) (c : Caller) : Bool :=
  let mask := ((l.find? fun e => e.tag = aclMask).map AclEntry.perm).getD 7
  let named := l.filter fun e => e.tag = aclUser ∧ e.id = c.uid
  let mine := l.filter fun e =>
    e.tag = aclGroupObj ∧ c.In i.gid ∨ e.tag = aclGroup ∧ c.In e.id
  if i.uid = c.uid then l.any fun e => e.tag = aclUserObj ∧ e.Writes 7
  else if named ≠ [] then named.any fun e => e.Writes mask
  else if mine ≠ [] then mine.any fun e => e.Writes mask
  else l.any fun e => e.tag = aclOther ∧ e.Writes 7

def modeWrites (i : Inode) (c : Caller) : Bool :=
  if i.uid = c.uid then i.mode &&& sIwusr ≠ 0
  else if c.In i.gid then i.mode &&& sIwgrp ≠ 0
  else i.mode &&& sIwoth ≠ 0

/-- Who may write to a file, which is to connect to a socket. -/
def mayWrite (i : Inode) (c : Caller) : Bool :=
  match i.acl with
  | none => c.uid = 0 || modeWrites i c
  | some bytes => c.uid = 0 || ((readAcl bytes).map fun l => aclWrites l i c).getD false

end Kernel

/-- The list that is set. -/
def grantOf (uid : UInt32) : List AclEntry :=
  [⟨aclUserObj, 6, 0⟩, ⟨aclUser, 6, uid⟩, ⟨aclGroupObj, 6, 0⟩, ⟨aclMask, 6, 0⟩, ⟨aclOther, 6, 0⟩]

/-- The half words of the attribute are read back as the user id that went in. -/
theorem readAcl_aclBytes (uid : UInt32) : readAcl (aclBytes uid) = some (grantOf uid) := by
  have hlt : uid.toNat < 2 ^ 32 := uid.toNat_lt
  have hhalf (w : Nat) (hw : w < 2 ^ 16) :
      rd16 (UInt8.ofNat (w % 256)) (UInt8.ofNat (w / 256)) = w := by
    simp only [rd16, UInt8.toNat_ofNat']
    omega
  have hid : UInt32.ofNat (uid.toNat % 2 ^ 16 + 2 ^ 16 * (uid.toNat / 2 ^ 16)) = uid := by
    rw [Nat.mod_add_div, UInt32.ofNat_toNat]
  have hread : readAcl (aclBytes uid) = some [⟨aclUserObj, 6, 0⟩,
      ⟨aclUser, 6, UInt32.ofNat
        (rd16 (UInt8.ofNat (uid.toNat % 2 ^ 16 % 256)) (UInt8.ofNat (uid.toNat % 2 ^ 16 / 256)) +
          2 ^ 16 * rd16 (UInt8.ofNat (uid.toNat / 2 ^ 16 % 256))
            (UInt8.ofNat (uid.toNat / 2 ^ 16 / 256)))⟩,
      ⟨aclGroupObj, 6, 0⟩, ⟨aclMask, 6, 0⟩, ⟨aclOther, 6, 0⟩] := rfl
  rw [hread, hhalf _ (Nat.mod_lt _ (by decide)), hhalf _ (by omega), hid]
  rfl

section Grant

variable {h : AclHost} {i : Inode} {uid gid : UInt32} {groups : List UInt32}

/-- Once the list is set, everybody may write. -/
theorem mayWrite_grant (c : Caller) :
    mayWrite { i with acl := some (aclBytes uid) } c = true := by
  have hlist : aclWrites (grantOf uid) { i with acl := some (aclBytes uid) } c = true := by
    have hwrites : AclEntry.Writes ⟨aclUser, 6, uid⟩ 6 = true := by
      have hbit : 6 &&& 6 &&& 2 ≠ 0 := by decide
      exact decide_eq_true hbit
    have hmask : ((grantOf uid).find? fun e => e.tag = aclMask).map AclEntry.perm = some 6 := rfl
    have hnamed : (grantOf uid).filter (fun e => e.tag = aclUser ∧ e.id = c.uid) =
        if uid = c.uid then [⟨aclUser, 6, uid⟩] else [] := by
      by_cases hu : uid = c.uid <;> simp [grantOf, aclUserObj, aclUser, aclGroupObj, aclMask,
        aclOther, hu]
    have hmine : (grantOf uid).filter (fun e => e.tag = aclGroupObj ∧ c.In i.gid ∨
        e.tag = aclGroup ∧ c.In e.id) = if c.In i.gid then [⟨aclGroupObj, 6, 0⟩] else [] := by
      by_cases hg : c.In i.gid <;> simp [grantOf, aclUserObj, aclUser, aclGroupObj, aclGroup,
        aclMask, aclOther, hg]
    simp only [aclWrites, hmask, hnamed, hmine, Option.getD_some]
    split
    · rfl
    · by_cases hu : uid = c.uid
      · rw [if_pos hu, if_pos (List.cons_ne_nil _ _), List.any_cons, hwrites, Bool.true_or]
      · rw [if_neg hu, if_neg (not_not.mpr rfl)]
        by_cases hg : c.In i.gid = true
        · rw [if_pos hg, if_pos (List.cons_ne_nil _ _)]
          rfl
        · rw [if_neg hg, if_neg (not_not.mpr rfl)]
          rfl
  have hread : mayWrite { i with acl := some (aclBytes uid) } c = (c.uid = 0 ||
      ((readAcl (aclBytes uid)).map fun l =>
        aclWrites l { i with acl := some (aclBytes uid) } c).getD false) := rfl
  rw [hread, readAcl_aclBytes, Option.map_some, Option.getD_some, hlist, Bool.or_true]

/-- The user owns the socket without the right to write to it, and one of his groups has
that right: to the program he may write, to the kernel he may not. -/
def Overlooked (i : Inode) (c : Caller) : Prop :=
  c.uid ≠ 0 ∧ i.uid = c.uid ∧ i.mode &&& sIwusr = 0 ∧ i.mode &&& sIwgrp ≠ 0 ∧ c.In i.gid = true

theorem aclSkip_iff : aclSkip i uid gid groups = true ↔
    i.uid = uid ∧ i.mode &&& sIwusr ≠ 0 ∨
      i.mode &&& sIwgrp ≠ 0 ∧ (Caller.mk uid gid groups).In i.gid = true := by
  have hgrp : matchGrp i groups = true ↔ i.gid ∈ groups ∧ i.mode &&& sIwgrp ≠ 0 := by
    unfold matchGrp
    rw [List.any_eq_true]
    constructor
    · rintro ⟨g, hg, hgrp⟩
      obtain ⟨rfl, hmode⟩ := of_decide_eq_true hgrp
      exact ⟨hg, hmode⟩
    · exact fun hgrp => ⟨i.gid, hgrp.1, decide_eq_true ⟨rfl, hgrp.2⟩⟩
  have hin : (Caller.mk uid gid groups).In i.gid = true ↔ i.gid = gid ∨ i.gid ∈ groups :=
    decide_eq_true_iff
  unfold aclSkip
  rw [hin]
  split
  · rename_i howner
    exact ⟨fun _ => .inl howner, fun _ => rfl⟩
  · rename_i howner
    split
    · rename_i hgid
      exact ⟨fun _ => .inr ⟨hgid.2, .inl hgid.1⟩, fun _ => rfl⟩
    · rename_i hgid
      rw [hgrp]
      constructor
      · exact fun hmem => .inr ⟨hmem.2, .inr hmem.1⟩
      · rintro (h | ⟨hmode, h | h⟩)
        · exact absurd h howner
        · exact absurd ⟨h, hmode⟩ hgid
        · exact ⟨h, hmode⟩

/-- A user of whom the list need not speak may write by the mode of the socket. -/
theorem modeWrites_skip (hskip : aclSkip i uid gid groups = true) (huid : uid ≠ 0) :
    modeWrites i ⟨uid, gid, groups⟩ = true ↔ ¬Overlooked i ⟨uid, gid, groups⟩ := by
  unfold modeWrites Overlooked
  rw [aclSkip_iff] at hskip
  dsimp only
  by_cases howner : i.uid = uid
  · rw [if_pos howner, decide_eq_true_iff]
    constructor
    · exact fun hmode hover => hmode hover.2.2.1
    · intro hover hmode
      obtain ⟨-, hw⟩ | ⟨hgrp, hin⟩ := hskip
      · exact hw hmode
      · exact hover ⟨huid, howner, hmode, hgrp, hin⟩
  · rw [if_neg howner]
    obtain ⟨heq, -⟩ | ⟨hgrp, hin⟩ := hskip
    · exact absurd heq howner
    · rw [if_pos hin]
      exact ⟨fun _ hover => howner hover.2.1, fun _ => decide_eq_true hgrp⟩

/-- After `acl_set_fd` has returned 0 the user may write to a socket that had no list,
unless he is overlooked. Either nothing has changed, or the list that is set has the five
entries, and by the last of them everybody may write. -/
theorem aclSetFd_exact (hsock : i.sock = true) (hplain : i.acl = none)
    (hzero : (aclSetFd h i uid gid groups).1 = 0) :
    (mayWrite (aclSetFd h i uid gid groups).2 ⟨uid, gid, groups⟩ = true ↔
      ¬Overlooked i ⟨uid, gid, groups⟩) ∧
    ((aclSetFd h i uid gid groups).2 = i ∨ ∃ bytes,
      (aclSetFd h i uid gid groups).2 = { i with acl := some bytes } ∧
        readAcl bytes = some (grantOf uid) ∧
        ∀ c, mayWrite (aclSetFd h i uid gid groups).2 c = true) := by
  have hmode (c : Caller) : mayWrite i c = (c.uid = 0 || modeWrites i c) := by
    unfold mayWrite
    rw [hplain]
  unfold aclSetFd at hzero ⊢
  have hfails : ((-1 : Int), i).1 ≠ 0 := show (-1 : Int) ≠ 0 by decide
  split_ifs at hzero ⊢ with hstats hno hskip hsets
  · exact absurd hzero hfails
  · rw [hsock] at hno
    cases hno
  · refine ⟨?_, .inl rfl⟩
    rw [hmode, Bool.or_eq_true, decide_eq_true_iff]
    by_cases huid : uid = 0
    · exact ⟨fun _ hover => hover.1 huid, fun _ => .inl huid⟩
    · rw [or_iff_right huid]
      exact modeWrites_skip (hskip.resolve_left huid) huid
  · refine ⟨⟨fun _ hover => hskip (.inr ?_), fun _ => mayWrite_grant _⟩,
      .inr ⟨_, rfl, readAcl_aclBytes uid, mayWrite_grant⟩⟩
    exact aclSkip_iff.mpr (.inr ⟨hover.2.2.2.1, hover.2.2.2.2⟩)
  · exact absurd hzero hfails

/-- The socket of another user, in a directory only its group may enter. -/
theorem aclSetFd_exact_other :
    (mayWrite (aclSetFd ⟨true, true, true⟩ ⟨true, 1001, 1001, 0o755, none⟩ 70000 5 [6]).2
        ⟨70000, 5, [6]⟩ = true ↔
      ¬Overlooked ⟨true, 1001, 1001, 0o755, none⟩ ⟨70000, 5, [6]⟩) ∧
    ((aclSetFd ⟨true, true, true⟩ ⟨true, 1001, 1001, 0o755, none⟩ 70000 5 [6]).2 =
        ⟨true, 1001, 1001, 0o755, none⟩ ∨ ∃ bytes,
      (aclSetFd ⟨true, true, true⟩ ⟨true, 1001, 1001, 0o755, none⟩ 70000 5 [6]).2 =
          ⟨true, 1001, 1001, 0o755, some bytes⟩ ∧
        readAcl bytes = some (grantOf 70000) ∧
        ∀ c, mayWrite (aclSetFd ⟨true, true, true⟩ ⟨true, 1001, 1001, 0o755, none⟩ 70000 5 [6]).2
          c = true) :=
  aclSetFd_exact rfl rfl rfl

end Grant

end Cage.Sandbox.Acl
