import Cage.Ext4.ConsistentCorrect
import Cage.Ext4.Exact
import Cage.Sandbox.Ext4Fix
import Cage.Sandbox.ImageFs
import Cage.Util.Decimal

/-!
What a process that sets up the image does to the shared directory, and what it
relies on: its temporary name and the files it has created are its own, and the
file under the image's name is only ever replaced by a complete image.
-/

namespace Cage.Sandbox

open Lib.Buffer Lib.Program Util Ext4

theorem ofNat_toUInt8 {c : Char} (h : c.isDigit = true) : Char.ofNat c.toUInt8.toNat = c := by
  rw [(isDigit_range h).1, Char.ofNat_toNat]

/-- The number that a string of digits stands for. -/
def digitsValue (s : CStr) : Nat :=
  Nat.ofDigitChars 10 (s.map fun b => Char.ofNat b.toNat) 0

theorem digitsValue_intStr (n : Nat) : digitsValue (intStr n) = n := by
  have hback : ((Nat.toDigits 10 n).map fun c => c.toUInt8).map (fun b => Char.ofNat b.toNat) =
      Nat.toDigits 10 n := by
    rw [List.map_map]
    refine (List.map_congr_left ?_).trans (List.map_id _)
    intro c hc
    exact ofNat_toUInt8 (isDigit_of_mem_toDigits hc)
  rw [digitsValue, intStr_nat, hback, Nat.ofDigitChars_ten_toDigits]

theorem tmpName_ne (img : CStr) (p : Nat) : tmpName img p ≠ img := by
  intro h
  have hlen := congrArg List.length h
  simp only [tmpName, List.length_append] at hlen
  have htmp : (lit ".tmp.").length = 5 := by decide
  omega

theorem tmpName_inj {img : CStr} {p q : Nat} (h : tmpName img p = tmpName img q) : p = q := by
  have hstr : intStr p = intStr q := List.append_cancel_left h
  rw [← digitsValue_intStr p, hstr, digitsValue_intStr]

/-- A completely written image. -/
def Complete (n : Node) : Prop :=
  ∃ (uuid hashSeed : ByteVec 16) (now : Nat), n = .file (image (mkfsOf uuid hashSeed now))

/-- The calls of a process all of which succeed. -/
def alone {A : Type} (m : Steps A) (s : ImageFs) : A :=
  ((m.run []).exec (ImageFs.answer 0 allFull) s).1.1

/-- `ext4_image_valid` accepts what stands at the path. -/
def Accepted (img : CStr) (s : ImageFs) : Prop := alone (ext4ImageValid img) s = true

/-- The size and the magic number are those of an image. -/
def imageLike (f : File) : Bool :=
  f.size = blocks * blkSize && rd16 (f.slice (sbOff + 0x38) 2) 0 = ext4SuperMagic

theorem imageLike_image (m : Mkfs) : imageLike (image m) = true := by
  have hcontents := image_contents m
  have hmagic : rd16 ((image m).slice (sbOff + 0x38) 2) 0 = ext4SuperMagic := by
    have hslice := slice_file_slice (image m) sbOff 0x38 1024 2 (by decide)
    rw [← hslice, hcontents.sb, ← superblock_magic m]
    unfold rd16 rd8
    simp only [byte_slice]
    rfl
  unfold imageLike
  rw [hmagic, hcontents.size]
  rfl

section Rules

variable (img : CStr) (p : Nat)

/-- The same file stands at the path, with the same contents. -/
def SameImage (s t : ImageFs) : Prop :=
  t.entry img = s.entry img ∧ ∀ i, s.entry img = some i → t.node i = s.node i

/-- What a step of `p` does at most. -/
structure Guarantee (s t : ImageFs) : Prop where
  tmp : ∀ q, q ≠ p → t.entry (tmpName img q) = s.entry (tmpName img q)
  node : ∀ q, q ≠ p → ∀ i, s.maker i = some q → t.node i = s.node i
  maker : ∀ q, q ≠ p → ∀ i, t.maker i = some q ↔ s.maker i = some q
  refused : ∀ i, s.refused i = true → t.refused i = true
  image : SameImage img s t ∨
    ∃ i, t.entry img = some i ∧ t.maker i = some p ∧ Complete (t.node i)

/-- What the others do at most between two steps of `p`. -/
structure Reliance (s t : ImageFs) : Prop where
  tmp : t.entry (tmpName img p) = s.entry (tmpName img p)
  node : ∀ i, s.maker i = some p → t.node i = s.node i
  maker : ∀ i, t.maker i = some p ↔ s.maker i = some p
  refused : ∀ i, s.refused i = true → t.refused i = true
  image : SameImage img s t ∨
    ∃ i, t.entry img = some i ∧ t.maker i ≠ some p ∧ Complete (t.node i)

variable {img p} {s t u : ImageFs}

theorem SameImage.refl : SameImage img s s := ⟨rfl, fun _ _ => rfl⟩

theorem SameImage.trans (hst : SameImage img s t) (htu : SameImage img t u) : SameImage img s u :=
  ⟨htu.1.trans hst.1, fun i hi => (htu.2 i (hst.1.trans hi)).trans (hst.2 i hi)⟩

theorem Reliance.refl : Reliance img p s s where
  tmp := rfl
  node := fun _ _ => rfl
  maker := fun _ => Iff.rfl
  refused := fun _ h => h
  image := Or.inl SameImage.refl

theorem Reliance.trans (hst : Reliance img p s t) (htu : Reliance img p t u) :
    Reliance img p s u where
  tmp := htu.tmp.trans hst.tmp
  node i hi := (htu.node i ((hst.maker i).mpr hi)).trans (hst.node i hi)
  maker i := (htu.maker i).trans (hst.maker i)
  refused i hi := htu.refused i (hst.refused i hi)
  image := by
    rcases htu.image with hsame | hnew
    · rcases hst.image with hsame' | ⟨i, hentry, hmaker, hnode⟩
      · exact Or.inl (hsame'.trans hsame)
      · refine Or.inr ⟨i, hsame.1.trans hentry, ?_, ?_⟩
        · exact fun hi => hmaker ((htu.maker i).mp hi)
        · rw [hsame.2 i hentry]
          exact hnode
    · exact Or.inr hnew

theorem Guarantee.reliance {q : Nat} (hpq : p ≠ q) (h : Guarantee img p s t) :
    Reliance img q s t where
  tmp := h.tmp q (Ne.symm hpq)
  node := h.node q (Ne.symm hpq)
  maker := h.maker q (Ne.symm hpq)
  refused := h.refused
  image := by
    rcases h.image with hsame | ⟨i, hentry, hmaker, hnode⟩
    · exact Or.inl hsame
    · refine Or.inr ⟨i, hentry, ?_, hnode⟩
      rw [hmaker]
      exact fun heq => hpq (Option.some.inj heq)

variable (img) in
/-- The processes at the image. -/
def building : Protocol Nat ImageFs where
  guar := Guarantee img
  rely := Reliance img
  refl := fun _ _ => Reliance.refl
  trans := fun _ _ _ _ => Reliance.trans
  others := fun _ _ _ _ hpq h => h.reliance hpq

theorem Guarantee.same : Guarantee img p s s where
  tmp := fun _ _ => rfl
  node := fun _ _ _ _ => rfl
  maker := fun _ _ _ => Iff.rfl
  refused := fun _ h => h
  image := Or.inl SameImage.refl

theorem Guarantee.remove : Guarantee img p s (s.remove (tmpName img p)) where
  tmp _ hq := s.remove_of_ne fun h => hq (tmpName_inj h)
  node := fun _ _ _ _ => rfl
  maker := fun _ _ _ => Iff.rfl
  refused := fun _ h => h
  image := Or.inl ⟨s.remove_of_ne (tmpName_ne img p).symm, fun _ _ => rfl⟩

theorem Guarantee.refuse (path : CStr) : Guarantee img p s (s.refuse path) where
  tmp := fun _ _ => rfl
  node := fun _ _ _ _ => rfl
  maker := fun _ _ _ => Iff.rfl
  refused i h := by simp [ImageFs.refuse, h]
  image := Or.inl ⟨rfl, fun _ _ => rfl⟩

theorem Guarantee.make : Guarantee img p s (s.make p (tmpName img p)) where
  tmp q hq := s.make_of_ne p fun h => hq (tmpName_inj h)
  node _ _ i hi := Function.update_of_ne (Nat.ne_of_lt (s.maker_lt i _ hi)) _ s.node
  maker q hq i := by
    show Function.update s.maker s.next (some p) i = some q ↔ _
    by_cases hi : i = s.next
    · subst hi
      rw [Function.update_self]
      refine ⟨fun h => absurd (Option.some.inj h).symm hq, fun h => ?_⟩
      exact absurd (s.maker_lt s.next q h) (Nat.lt_irrefl _)
    · rw [Function.update_of_ne hi]
  refused := fun _ h => h
  image := by
    refine Or.inl ⟨s.make_of_ne p (tmpName_ne img p).symm, fun i hi => ?_⟩
    exact Function.update_of_ne (Nat.ne_of_lt (s.entry_lt img i hi)) _ s.node

/-- The file of `p` under its temporary name. -/
structure Filling (img : CStr) (p j : Nat) (f : File) (s : ImageFs) : Prop where
  name : s.entry (tmpName img p) = some j
  made : s.maker j = some p
  apart : s.entry img ≠ some j
  content : s.node j = .file f

theorem Guarantee.setNode {j : Nat} {f : File} {n : Node} (h : Filling img p j f s) :
    Guarantee img p s (s.setNode j n) where
  tmp := fun _ _ => rfl
  node q hq i hi := by
    refine Function.update_of_ne ?_ _ s.node
    rintro rfl
    rw [h.made] at hi
    exact hq (Option.some.inj hi).symm
  maker := fun _ _ _ => Iff.rfl
  refused := fun _ h => h
  image := by
    refine Or.inl ⟨rfl, fun i hi => Function.update_of_ne ?_ _ s.node⟩
    rintro rfl
    exact h.apart hi

theorem Guarantee.move {j : Nat} {f : File} (h : Filling img p j f s) (hf : Complete (.file f)) :
    Guarantee img p s (s.move (tmpName img p) img) where
  tmp q hq := s.move_of_ne (fun heq => hq (tmpName_inj heq)) (tmpName_ne img q)
  node := fun _ _ _ _ => congrFun s.move_node _
  maker := fun _ _ _ => by rw [s.move_maker]
  refused i hi := by rw [s.move_refused, hi]
  image := by
    refine Or.inr ⟨j, ?_, ?_, ?_⟩
    · rw [s.move_self, h.name]
    · rw [s.move_maker, h.made]
    · rw [s.move_node, h.content]
      exact hf

end Rules

end Cage.Sandbox
