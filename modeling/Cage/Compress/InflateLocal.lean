import Cage.Compress.Inflate

/-!
The block decoder reads the bytes of its reader up to the reader's length, and
nothing of those behind: it does the same on every reader that agrees there.
-/

namespace Cage.Compress

open Lib.Checked Util

variable {σ : Type}

/-- The readers differ behind their length only. -/
structure Br.Agree (br br' : Br) : Prop where
  len : br'.len = br.len
  pos : br'.pos = br.pos
  buf : br'.buf = br.buf
  bits : br'.bits = br.bits
  data : ∀ i, i < br.len → br'.data[i]? = br.data[i]?

theorem brNeedLoop_local (fuel n : Nat) : Respects Br.Agree (brNeedLoop fuel n) := by
  induction fuel with
  | zero => exact Respects.fault _
  | succ fuel ih =>
    refine Respects.get_bind fun br br' h => ?_
    rw [h.bits, h.pos, h.len, h.buf]
    split
    · split
      · exact Respects.pure _ br br' h
      · rename_i hpos
        rw [ge_iff_le, Nat.not_le] at hpos
        have hload : (load br'.data br.pos : Exec Br UInt8) = load br.data br.pos := by
          unfold load
          rw [h.data br.pos hpos]
        rw [hload]
        refine Follows.bind (Respects.load _ _ br br' h) fun byte s t hst => ?_
        refine Follows.bind (fun a s' hrun => ?_) fun _ s' t' hst' => ih s' t' hst'
        cases hrun
        exact ⟨_, rfl, rfl, rfl, rfl, rfl, h.data⟩
    · exact Respects.pure _ br br' h

theorem brPeek_local (n : Nat) : Respects Br.Agree (brPeek n) := by
  refine Respects.bind (brNeedLoop_local _ n) fun r => Respects.ite (Respects.pure _) ?_
  refine Respects.get_bind fun br br' h => ?_
  rw [h.buf]
  exact Respects.pure _ br br' h

theorem brDrop_local (n : Nat) : Respects Br.Agree (brDrop n) := by
  intro br br' h a s hrun
  cases hrun
  refine ⟨_, rfl, h.len, h.pos, ?_, ?_, h.data⟩
  · exact congrArg (· >>> n) h.buf
  · exact congrArg (· - n) h.bits

theorem brBits_local (n : Nat) : Respects Br.Agree (brBits n) :=
  Respects.bind (brPeek_local n) fun _ =>
    Respects.ite (Respects.pure _) (Respects.bind (brDrop_local n) fun _ => Respects.pure _)

theorem brAlign_local : Respects Br.Agree brAlign := by
  refine Respects.get_bind fun br br' h => ?_
  rw [h.bits]
  exact Respects.ite (brDrop_local _) (Respects.pure _) br br' h

/-- Building a table asks for no state. -/
theorem huffBuild_local {r : σ → σ → Prop} (lengths : List Nat) (nsym : Nat) :
    Respects r (huffBuild lengths nsym : Exec σ Huff) := by
  have hcount (count : List Nat) : Respects r (huffCount count lengths nsym : Exec σ _) :=
    Respects.loopUp (fun i count => Respects.bind (Respects.load _ _) fun l =>
      Respects.ite (Respects.bind (Respects.load _ _) fun c => Respects.store _ _ _)
        (Respects.pure _)) _ _ _
  have hcodes (firstCode count : List Nat) : Respects r (huffCodes firstCode count : Exec σ _) :=
    Respects.bind (Respects.loopUp (fun b p => Respects.bind (Respects.store _ _ _) fun _ =>
      Respects.bind (Respects.load _ _) fun _ => Respects.pure _) _ _ _) fun _ => Respects.pure _
  have hslots (firstIdx count : List Nat) : Respects r (huffSlots firstIdx count : Exec σ _) :=
    Respects.bind (Respects.store _ _ _) fun _ => Respects.bind (Respects.store _ _ _) fun _ =>
      Respects.loopUp (fun b p => Respects.bind (Respects.load _ _) fun _ =>
        Respects.bind (Respects.load _ _) fun _ => Respects.bind (Respects.store _ _ _) fun _ =>
          Respects.bind (Respects.load _ _) fun _ => Respects.bind (Respects.store _ _ _) fun _ =>
            Respects.pure _) _ _ _
  have hplace (firstIdx count symbols : List Nat) :
      Respects r (huffPlace firstIdx count symbols lengths nsym : Exec σ _) :=
    Respects.bind (hslots firstIdx count) fun _ =>
      Respects.bind (Respects.loopUp (fun i p => Respects.bind (Respects.load _ _) fun l =>
        Respects.ite (Respects.bind (Respects.load _ _) fun _ =>
          Respects.bind (Respects.store _ _ _) fun _ =>
            Respects.bind (Respects.store _ _ _) fun _ => Respects.pure _)
          (Respects.pure _)) _ _ _) fun _ => Respects.pure _
  exact Respects.bind (hcount _) fun _ => Respects.bind (hcodes _ _) fun _ =>
    Respects.bind (hplace _ _ _) fun _ => Respects.pure _

theorem huffDecodeLoop_local (h : Huff) (k b code : Nat) :
    Respects Br.Agree (huffDecodeLoop h k b code) := by
  induction k generalizing b code with
  | zero => exact Respects.pure _
  | succ k ih =>
    refine Respects.bind (brBits_local 1) fun bit => Respects.ite (Respects.pure _) ?_
    refine Respects.bind (Respects.load _ _) fun fc => Respects.ite (ih _ _) ?_
    refine Respects.bind (Respects.load _ _) fun c => Respects.ite ?_ (ih _ _)
    exact Respects.bind (Respects.load _ _) fun idx =>
      Respects.bind (Respects.load _ _) fun sym => Respects.pure _

theorem huffDecode_local (h : Huff) : Respects Br.Agree (huffDecode h) :=
  huffDecodeLoop_local h 15 1 0

theorem fillRep_local {r : σ → σ → Prop} (lit : List Nat) (idx total rep val : Nat) :
    Respects r (fillRep lit idx total rep val : Exec σ (List Nat × Nat)) := by
  induction rep generalizing lit idx with
  | zero => exact Respects.pure _
  | succ rep ih =>
    exact Respects.ite (Respects.pure _) (Respects.bind (Respects.store _ _ _) fun lit' => ih lit' _)

theorem repLen_local (lit : List Nat) (idx total sym : Nat) :
    Respects Br.Agree (repLen lit idx total sym) := by
  refine Respects.ite ?_ ?_
  · refine Respects.bind (brBits_local 2) fun raw => Respects.ite (Respects.pure _) ?_
    refine Respects.bind (Respects.load _ _) fun prev => ?_
    exact Respects.bind (fillRep_local _ _ _ _ _) fun r => Respects.pure _
  · refine Respects.bind (brBits_local _) fun raw => Respects.ite (Respects.pure _) ?_
    exact Respects.bind (fillRep_local _ _ _ _ _) fun r => Respects.pure _

theorem decodeLenLoop_local (hc : Huff) (total fuel : Nat) (lit : List Nat) (idx : Nat) :
    Respects Br.Agree (decodeLenLoop hc total fuel lit idx) := by
  induction fuel generalizing lit idx with
  | zero => exact Respects.fault _
  | succ fuel ih =>
    refine Respects.ite ?_ (Respects.pure _)
    refine Respects.bind (huffDecode_local hc) fun sym => Respects.ite (Respects.pure _) ?_
    refine Respects.ite (Respects.bind (Respects.store _ _ _) fun lit' => ih lit' _) ?_
    refine Respects.bind (repLen_local _ _ _ _) fun r => ?_
    cases r with
    | none => exact Respects.pure _
    | some p => exact ih _ _

theorem clLoop_local (k i : Nat) (cl : List Nat) : Respects Br.Agree (clLoop k i cl) := by
  induction k generalizing i cl with
  | zero => exact Respects.pure _
  | succ k ih =>
    refine Respects.bind (brBits_local 3) fun v => Respects.ite (Respects.pure _) ?_
    exact Respects.bind (Respects.load _ _) fun ord =>
      Respects.bind (Respects.store _ _ _) fun cl' => ih _ cl'

theorem readCodeLengths_local (nl nd : Int) : Respects Br.Agree (readCodeLengths nl nd) := by
  refine Respects.bind (brBits_local 4) fun nc => ?_
  refine Respects.bind (clLoop_local _ _ _) fun r => ?_
  cases r with
  | none => exact Respects.pure _
  | some cl => exact Respects.bind (huffBuild_local _ _) fun ct => decodeLenLoop_local _ _ _ _ _

theorem readDynamic_local (dst : List Nat) : Respects Br.Agree (readDynamic dst) := by
  refine Respects.bind (brBits_local 5) fun nl => Respects.bind (brBits_local 5) fun nd => ?_
  refine Respects.bind (readCodeLengths_local _ _) fun r => ?_
  cases r with
  | none => exact Respects.pure _
  | some lit =>
    exact Respects.bind (Respects.copyTo _ _ _ _) fun _ => Respects.bind (huffBuild_local _ _)
      fun _ => Respects.bind (huffBuild_local _ _) fun _ => Respects.pure _

theorem getLen_local (sym : Nat) : Respects Br.Agree (getLen sym) := by
  refine Respects.ite (Respects.pure _) ?_
  refine Respects.bind (Respects.load _ _) fun len => Respects.bind (Respects.load _ _) fun extra => ?_
  refine Respects.ite (Respects.pure _) ?_
  exact Respects.bind (brBits_local _) fun e => Respects.ite (Respects.pure _) (Respects.pure _)

theorem getDist_local (hd : Huff) : Respects Br.Agree (getDist hd) := by
  refine Respects.bind (huffDecode_local hd) fun sym => Respects.ite (Respects.pure _) ?_
  refine Respects.ite (Respects.pure _) ?_
  refine Respects.bind (Respects.load _ _) fun d => Respects.bind (Respects.load _ _) fun extra => ?_
  refine Respects.ite (Respects.pure _) ?_
  exact Respects.bind (brBits_local _) fun e => Respects.ite (Respects.pure _) (Respects.pure _)

/-- The readers agree, and the output is the same. -/
def Sess.Agree (s s' : Sess) : Prop := s.br.Agree s'.br ∧ s'.out = s.out

theorem onBr_local {α : Type} {m : Exec Br α} (hm : Respects Br.Agree m) :
    Respects Sess.Agree (onBr m) :=
  hm.zoom (fun _ _ h => h.1) fun _ _ h _ _ hr => ⟨hr, h.2⟩

theorem onOut_local {α : Type} (m : Exec Buf α) : Respects Sess.Agree (onOut m) := by
  have hsame : Respects Eq m := by
    rintro b _ rfl a b' hrun
    exact ⟨b', hrun, rfl⟩
  exact hsame.zoom (fun _ _ h => h.2.symm) fun _ _ h _ _ hr => ⟨h.1, hr.symm⟩

theorem storedLoop_local (k : Nat) : Respects Sess.Agree (storedLoop k) := by
  induction k with
  | zero => exact Respects.pure _
  | succ k ih =>
    refine Respects.bind (onBr_local (brBits_local 8)) fun b => Respects.ite (Respects.pure _) ?_
    exact Respects.bind (onOut_local _) fun r => Respects.ite (Respects.pure _) ih

theorem decodeStored_local : Respects Sess.Agree decodeStored :=
  Respects.bind (onBr_local brAlign_local) fun _ =>
    Respects.bind (onBr_local (brBits_local 16)) fun _ =>
      Respects.bind (onBr_local (brBits_local 16)) fun _ =>
        Respects.ite (Respects.pure _) (storedLoop_local _)

theorem doSym_local (hd : Huff) (sym : Nat) : Respects Sess.Agree (doSym hd sym) := by
  refine Respects.ite ?_ (Respects.ite ?_ (Respects.pure _))
  · exact Respects.bind (onOut_local _) fun _ => Respects.ite (Respects.pure _) (Respects.pure _)
  · refine Respects.bind (onBr_local (getLen_local sym)) fun len => ?_
    refine Respects.ite (Respects.pure _) ?_
    exact Respects.bind (onBr_local (getDist_local hd)) fun distance =>
      Respects.ite (Respects.pure _) (onOut_local _)

theorem runLoopFrom_local (hl hd : Huff) (last : Int) (fuel : Nat) :
    Respects Sess.Agree (runLoopFrom hl hd last fuel) := by
  induction fuel with
  | zero => exact Respects.fault _
  | succ fuel ih =>
    refine Respects.bind (onBr_local (huffDecode_local hl)) fun sym => ?_
    refine Respects.ite (Respects.pure _) (Respects.bind (doSym_local hd _) fun ret => ?_)
    exact Respects.ite (Respects.pure _) (Respects.ite (Respects.pure _) ih)

theorem runLoop_local (hl hd : Huff) (last : Int) : Respects Sess.Agree (runLoop hl hd last) := by
  refine Respects.get_bind fun s s' h => ?_
  rw [h.1.bits, h.1.len, h.1.pos]
  exact runLoopFrom_local hl hd last _ s s' h

theorem buildFixed_local {r : σ → σ → Prop} (lit dst : List Nat) :
    Respects r (buildFixed lit dst : Exec σ (Huff × Huff)) := by
  have hstore (v k i : Nat) (xs : List Nat) :
      Respects r (loopUp (fun i xs => store xs i v) k i xs : Exec σ (List Nat)) :=
    Respects.loopUp (fun _ _ => Respects.store _ _ _) k i xs
  have hfixed : Respects r (fixedHuff lit dst : Exec σ _) :=
    Respects.bind (hstore _ _ _ _) fun _ => Respects.bind (hstore _ _ _ _) fun _ =>
      Respects.bind (hstore _ _ _ _) fun _ => Respects.bind (hstore _ _ _ _) fun _ =>
        Respects.bind (hstore _ _ _ _) fun _ => Respects.pure _
  exact Respects.bind hfixed fun _ => Respects.bind (huffBuild_local _ _) fun _ =>
    Respects.bind (huffBuild_local _ _) fun _ => Respects.pure _

theorem inflateBlock_local : Respects Sess.Agree inflateBlock := by
  refine Respects.bind (onBr_local (brBits_local 1)) fun last => ?_
  refine Respects.bind (onBr_local (brBits_local 2)) fun type => ?_
  refine Respects.ite (Respects.pure _) (Respects.ite ?_ (Respects.ite ?_ ?_))
  · exact Respects.bind decodeStored_local fun r => Respects.ite (Respects.pure _) (Respects.pure _)
  · exact Respects.bind (buildFixed_local _ _) fun p => runLoop_local _ _ _
  · refine Respects.bind (onBr_local (readDynamic_local _)) fun r => ?_
    cases r with
    | none => exact Respects.pure _
    | some p => exact runLoop_local _ _ _

end Cage.Compress
