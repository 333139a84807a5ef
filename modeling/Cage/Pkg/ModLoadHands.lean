import Cage.Compress.DecompressCorrect
import Cage.Lib.Hoare
import Cage.Pkg.ModLoad
import Cage.Util.OpenAndRead

/-!
What the kernel is handed for a module file: the file, or what it unpacks to, and
never a part of either.
-/

namespace Cage.Pkg

open Compress Lib.Bits Lib.Checked Lib.Hoare Util

/-- The kernel has the module. -/
def Taken (errno : Int) : Prop := errno = 0 ∨ errno = eexist

/-- What a file in the format `f` unpacks to. For gzip the file begins with a header, a body
that begins with a stream for the data, and the trailer of the data; for the others a filter
that ends well gives the data. -/
def Unpacks (h : LoadHost) (content : Bytes) (f : ModFormat) (data : Bytes) : Prop :=
  (f.filter = none ∧ ∃ (hd : GzHeader) (body rest : Bytes) (blocks : List Compress.Block)
    (enc pad : List Bool), hd.Valid false ∧ hd.bytes ++ body ++ gzTrailer data ++ rest = content ∧
      EncStream false 0 [] blocks enc ∧ byteBits body = enc ++ pad ∧ data = streamBytes [] blocks) ∨
  ∃ filter p, f.filter = some filter ∧ h.filters filter = some p ∧ p.ok = true ∧
    data = (p.pieces.takeWhile (· ≠ [])).flatten

/-- The calls of `finit_module` for one file. -/
inductive Hands (h : LoadHost) : List Finit → Prop where
  | unread (hopen : h.content = none) : Hands h []
  | plain (content : Bytes) (errno : Int) (hopen : h.content = some content)
      (hmagic : modFormatByMagic (magicBytes h content) = none) : Hands h [⟨content, 0, errno⟩]
  | packed (content : Bytes) (errno : Int) (f : ModFormat) (hopen : h.content = some content)
      (hmagic : modFormatByMagic (magicBytes h content) = some f) :
      Hands h [⟨content, moduleInitCompressedFile, errno⟩]
  | unpacked (content data : Bytes) (errno : Int) (f : ModFormat) (hopen : h.content = some content)
      (hmagic : modFormatByMagic (magicBytes h content) = some f)
      (hdata : Unpacks h content f data) :
      Hands h [⟨content, moduleInitCompressedFile, eopnotsupp⟩, ⟨data, 0, errno⟩]

/-- The calls so far, with the table of the checksum as it should be. -/
structure Given (calls : List Finit) (s : LoadState) : Prop where
  finits : s.finits = calls
  crc : s.crc.Ok

/-- A write that waits for ever. -/
structure Hangs (calls : List Finit) (s : LoadState) : Prop where
  finits : s.finits = calls
  writes : s.writes = []

/-- `m` does not call the kernel, and has results in `V`. -/
def Prepares {A : Type} (m : LoadM A) (V : A → Prop) : Prop :=
  ∀ calls, Leads (Given calls) m (fun a s => Given calls s ∧ V a) (Hangs calls)

section

variable {A B : Type} {V : A → Prop} {W : B → Prop}

theorem Prepares.pure {a : A} (h : V a) : Prepares (Pure.pure a : LoadM A) V :=
  fun _ => Leads.pure fun _ hs => ⟨hs, h⟩

theorem Prepares.bind {m : LoadM A} {f : A → LoadM B} (hm : Prepares m V)
    (hf : ∀ a, V a → Prepares (f a) W) : Prepares (m >>= f) W := fun calls =>
  Leads.bind (hm calls) fun a s hs => hf a hs.2 calls s hs.1

theorem Prepares.ite {c : Prop} [Decidable c] {m n : LoadM A} (hm : c → Prepares m V)
    (hn : ¬c → Prepares n V) : Prepares (if c then m else n) V := fun calls =>
  Leads.ite (fun h => hm h calls) fun h => hn h calls

end

/-- A result with bytes that hold if it is 0. -/
def Gives (P : Bytes → Prop) (r : Int × Bytes) : Prop := r.1 = 0 → P r.2

theorem Gives.failed {P : Bytes → Prop} (data : Bytes) : Gives P (-1, data) :=
  fun h => nomatch h

/-- Whatever is answered, what has been written is a part, and the whole at the end. -/
theorem writeAnswers_appends (buf : Bytes) (answers : List WriteAns) (mem : Bytes) :
    (∀ r, (writeAnswers buf answers mem).1 = some r → Gives (· = mem ++ buf) r) ∧
      ((writeAnswers buf answers mem).1 = none → (writeAnswers buf answers mem).2 = []) := by
  induction answers generalizing buf mem with
  | nil =>
    cases buf with
    | nil => exact ⟨fun r hr => Option.some.inj hr ▸ fun _ => (List.append_nil mem).symm,
        fun hnone => nomatch hnone⟩
    | cons c buf => exact ⟨fun r hr => (nomatch hr), fun _ => rfl⟩
  | cons answer answers ih =>
    cases buf with
    | nil => exact ⟨fun r hr => Option.some.inj hr ▸ fun _ => (List.append_nil mem).symm,
        fun hnone => nomatch hnone⟩
    | cons c buf =>
      cases answer with
      | fails => exact ⟨fun r hr => Option.some.inj hr ▸ Gives.failed _, fun hnone => nomatch hnone⟩
      | again => exact ih (c :: buf) mem
      | takes n =>
        have hrest := ih ((c :: buf).drop n) (mem ++ (c :: buf).take n)
        rw [List.append_assoc, List.take_append_drop] at hrest
        exact hrest

theorem writeAll_prepares (buf mem : Bytes) :
    Prepares (writeAll buf mem) (Gives (· = mem ++ buf)) := by
  intro calls s hs
  obtain ⟨happends, hwaits⟩ := writeAnswers_appends buf s.writes mem
  exact ⟨fun r hr => ⟨⟨hs.finits, hs.crc⟩, happends r hr⟩, fun hnone => ⟨hs.finits, hwaits hnone⟩⟩

variable (h : LoadHost)

theorem bufWriteToFd_prepares (data : Bytes) :
    Prepares (bufWriteToFd h data) (Gives (· = data)) := by
  refine Prepares.bind (writeAll_prepares data []) fun r hr => Prepares.ite ?_ ?_
  · exact fun _ => Prepares.pure (Gives.failed r.2)
  · exact fun hdone => Prepares.pure fun _ => hr (not_not.mp hdone)

/-- The front of the file. -/
theorem openAndReadFile_prepares :
    Prepares (openAndReadFile h)
      (Gives fun data => ∃ content rest, h.content = some content ∧ data ++ rest = content) := by
  unfold openAndReadFile
  cases hopen : h.content with
  | none => exact Prepares.pure (Gives.failed [])
  | some content =>
    obtain ⟨r, reader, hrun, hread⟩ := FileRead.openAndRead_holds h.reader content
    simp only [hrun]
    refine Prepares.pure fun hdone => ?_
    rcases hread with hfail | ⟨-, hholds⟩
    · exact absurd (hfail.symm.trans hdone) (by decide)
    · exact ⟨content, reader.rest, rfl, hholds.split⟩

/-- What `decompress_gzip` accepts begins with a stream for what it gives. -/
theorem decompressBuffer_prepares (input : Bytes) :
    Prepares (decompressBuffer input) (Gives fun data =>
      ∃ (hd : GzHeader) (body : Bytes) (blocks : List Compress.Block) (enc pad : List Bool),
        hd.Valid false ∧ input = hd.bytes ++ body ++ gzTrailer data ∧
          EncStream false 0 [] blocks enc ∧ byteBits body = enc ++ pad ∧
          data = streamBytes [] blocks) := by
  intro calls s hs
  obtain ⟨r, gz, hrun, hok, hresult⟩ :=
    decompressGzip_spec input ⟨s.crc, Buf.init⟩ ⟨hs.crc, Buf.init_ok⟩
  have hends : (decompressBuffer input).run s = (some (r, gz.out.data), { s with crc := gz.crc }) := by
    change (gzipEnd (decompressGzip input ⟨s.crc, Buf.init⟩)).run s = _
    rw [hrun]
    rfl
  rw [hends]
  refine ⟨fun _ ha => Option.some.inj ha ▸ ⟨⟨hs.finits, hok.crc⟩, fun hdone => ?_⟩,
    fun hnone => nomatch hnone⟩
  rcases hresult with hfail | ⟨-, hd, body, blocks, enc, pad, hvalid, hinput, hstream, hbody, hdata⟩
  · exact absurd (hfail.symm.trans hdone) (by decide)
  · exact ⟨hd, body, blocks, enc, pad, hvalid, hinput, hstream, hbody, hdata⟩

theorem decompressGzipToFd_prepares {f : ModFormat} (hf : f.filter = none) :
    Prepares (decompressGzipToFd h)
      (Gives fun data => ∃ content, h.content = some content ∧ Unpacks h content f data) := by
  refine Prepares.bind (openAndReadFile_prepares h) fun compressed hread => Prepares.ite
    (fun _ => Prepares.pure (Gives.failed _)) fun hopen => ?_
  obtain ⟨content, rest, hcontent, hfront⟩ := hread (not_not.mp hopen)
  refine Prepares.bind (decompressBuffer_prepares _) fun unpacked hunpacked => Prepares.ite
    (fun _ => Prepares.pure (Gives.failed _)) fun hdone => Prepares.ite (fun _ => ?_)
    fun _ => Prepares.pure (Gives.failed _)
  obtain ⟨hd, body, blocks, enc, pad, hvalid, hinput, hstream, hbody, hdata⟩ :=
    hunpacked (not_not.mp hdone)
  refine Prepares.bind (bufWriteToFd_prepares h _) fun r hwritten => Prepares.ite
    (fun _ => Prepares.pure (Gives.failed _)) fun hwrote => Prepares.pure fun _ => ?_
  rw [hwritten (not_not.mp hwrote)]
  exact ⟨content, hcontent, .inl ⟨hf, hd, body, rest, blocks, enc, pad, hvalid, hinput ▸ hfront,
    hstream, hbody, hdata⟩⟩

/-- The file has what came out of the pipe up to the first empty read. -/
theorem pipeToFd_prepares (pieces : List Bytes) (mem : Bytes) :
    Prepares (pipeToFd pieces mem)
      (Gives (· = mem ++ (pieces.takeWhile (· ≠ [])).flatten)) := by
  induction pieces generalizing mem with
  | nil => exact Prepares.pure fun _ => (List.append_nil mem).symm
  | cons piece pieces ih =>
    refine Prepares.ite (fun hempty => ?_) fun hpiece => ?_
    · rw [List.takeWhile_cons_of_neg (by simpa using hempty)]
      exact Prepares.pure fun _ => (List.append_nil mem).symm
    · rw [List.takeWhile_cons_of_pos (by simpa using hpiece), List.flatten_cons, ← List.append_assoc]
      refine Prepares.bind (writeAll_prepares piece mem) fun r hr => Prepares.ite
        (fun _ => Prepares.pure (Gives.failed _)) fun hwrote => ?_
      rw [← hr (not_not.mp hwrote)]
      exact ih r.2

theorem decompressXzstdToFd_prepares {f : ModFormat} {filter : CStr} (hf : f.filter = some filter)
    (content : Bytes) :
    Prepares (decompressXzstdToFd h filter) (Gives (Unpacks h content f)) := by
  unfold decompressXzstdToFd
  cases hfilter : h.filters filter with
  | none => exact Prepares.pure (Gives.failed _)
  | some p =>
    refine Prepares.bind (pipeToFd_prepares p.pieces []) fun r hr => Prepares.ite
      (fun _ => Prepares.pure (Gives.failed _)) fun hdone => Prepares.pure fun _ => ?_
    obtain ⟨hok, hwrote⟩ := not_or.mp hdone
    exact .inr ⟨filter, p, hf, hfilter, by simpa using hok, hr (not_not.mp hwrote)⟩

/-- The result for a call of `finit_module` that is the last one. -/
def Verdict (r errno : Int) : Prop := (r = 0 ∧ Taken errno) ∨ (r = -1 ∧ ¬Taken errno)

theorem finitModuleFd_leads (data : Bytes) (flags : Nat) (calls : List Finit) :
    Leads (Given calls) (finitModuleFd h data flags)
      (fun r s => Given (calls ++ [⟨data, flags, r.2⟩]) s ∧ Verdict r.1 r.2) E := by
  refine Leads.bind (Q := fun errno s => Given (calls ++ [⟨data, flags, errno⟩]) s) ?_ ?_
  · intro s hs
    refine ⟨fun errno he => ?_, fun hnone => nomatch hnone⟩
    obtain rfl : h.finit s.finits.length data flags = errno := Option.some.inj he
    exact ⟨congrArg (· ++ _) hs.finits, hs.crc⟩
  · intro errno
    refine Leads.ite (fun hfail => Leads.pure fun s hs => ⟨hs, ?_⟩) fun hdone =>
      Leads.pure fun s hs => ⟨?_, .inl ⟨rfl, .inl (not_not.mp hdone)⟩⟩
    · by_cases hexist : errno = eexist
      · exact .inl ⟨if_pos hexist, .inr hexist⟩
      · exact .inr ⟨if_neg hexist, not_or.mpr ⟨hfail, hexist⟩⟩
    · rw [← not_not.mp hdone]
      exact hs

theorem finishFinit_leads (data : Bytes) (calls : List Finit) :
    Leads (Given calls) (finishFinit h data)
      (fun r s => ∃ errno, Given (calls ++ [⟨data, 0, errno⟩]) s ∧ Verdict r errno) E := by
  refine Leads.bind (finitModuleFd_leads h data 0 calls) fun r => Leads.ite
    (fun hfail => Leads.pure fun s hs => ?_) fun hdone => Leads.pure fun s hs => ?_
  · rcases hs.2 with ⟨hzero, -⟩ | ⟨-, hnot⟩
    · exact absurd hzero hfail
    · exact ⟨r.2, hs.1, .inr ⟨rfl, hnot⟩⟩
  · rcases hs.2 with ⟨-, htaken⟩ | ⟨hneg, -⟩
    · exact ⟨r.2, hs.1, .inl ⟨rfl, htaken⟩⟩
    · exact absurd (hneg.symm.trans (not_not.mp hdone)) (by decide)

/-- The calls are as they should be, and the result is 0 if the kernel has the module. -/
structure Settled (r : Int) (s : LoadState) : Prop where
  hands : Hands h s.finits
  result : (r = 0 ∧ ∃ c ∈ s.finits, Taken c.errno) ∨ (r = -1 ∧ ∀ c ∈ s.finits, ¬Taken c.errno)

/-- The kernel cannot unpack it. -/
def refusal (content : Bytes) : Finit := ⟨content, moduleInitCompressedFile, eopnotsupp⟩

theorem refusal_not_taken (content : Bytes) : ¬Taken (refusal content).errno := by
  rintro (hzero | hexist)
  · exact absurd (show eopnotsupp = 0 from hzero) (by decide)
  · exact absurd (show eopnotsupp = eexist from hexist) (by decide)

section

variable {h} {content : Bytes} {f : ModFormat}

theorem Settled.refused {s : LoadState} (hopen : h.content = some content)
    (hmagic : modFormatByMagic (magicBytes h content) = some f) (hs : Given [refusal content] s) :
    Settled h (-1) s where
  hands := hs.finits ▸ Hands.packed content eopnotsupp f hopen hmagic
  result := by
    refine .inr ⟨rfl, fun c hc => ?_⟩
    rw [hs.finits] at hc
    exact List.mem_singleton.mp hc ▸ refusal_not_taken content

/-- After a refusal there is a second call only when all of the data is there. -/
theorem finish_leads {m : LoadM (Int × Bytes)} (hopen : h.content = some content)
    (hmagic : modFormatByMagic (magicBytes h content) = some f)
    (hm : Prepares m (Gives (Unpacks h content f))) :
    Leads (Given [refusal content])
      (do
        let r ← m
        if r.1 ≠ 0 then pure (-1) else finishFinit h r.2)
      (Settled h) (Hangs [refusal content]) := by
  refine Leads.bind (hm _) fun r => Leads.ite
    (fun _ => Leads.pure fun s hs => Settled.refused hopen hmagic hs.1) fun hdone => ?_
  intro s hs
  have hdata := hs.2 (not_not.mp hdone)
  refine Leads.conseq (finishFinit_leads h r.2 _) (fun _ hs => hs) ?_ (fun _ he => he) s hs.1
  rintro r' s' ⟨errno, hcalls, hverdict⟩
  refine ⟨hcalls.finits ▸ Hands.unpacked content r.2 errno f hopen hmagic hdata, ?_⟩
  rw [hcalls.finits]
  rcases hverdict with ⟨hzero, htaken⟩ | ⟨hneg, hnot⟩
  · exact .inl ⟨hzero, _, List.mem_cons_of_mem _ List.mem_cons_self, htaken⟩
  · refine .inr ⟨hneg, fun c hc => ?_⟩
    rcases List.mem_cons.mp hc with rfl | hc
    · exact refusal_not_taken content
    · exact List.mem_singleton.mp hc ▸ hnot

theorem loadDecompressed_leads (hopen : h.content = some content)
    (hmagic : modFormatByMagic (magicBytes h content) = some f)
    (hcode : modFormatByCode f.code = some f) :
    Leads (Given [refusal content]) (loadDecompressed h f.code) (Settled h)
      (Hangs [refusal content]) := by
  unfold loadDecompressed
  simp only [hcode]
  cases hf : f.filter with
  | none =>
    refine finish_leads hopen hmagic fun calls => ?_
    refine Leads.conseq (decompressGzipToFd_prepares h hf calls) (fun _ hs => hs) ?_ fun _ he => he
    rintro r s ⟨hs, hgives⟩
    refine ⟨hs, fun hdone => ?_⟩
    obtain ⟨content', hopen', hdata⟩ := hgives hdone
    rwa [Option.some.inj (hopen.symm.trans hopen')]
  | some filter =>
    refine Leads.ite (fun _ => ?_) fun _ => Leads.pure fun s hs => Settled.refused hopen hmagic hs
    exact finish_leads hopen hmagic (decompressXzstdToFd_prepares h hf content)

/-- A format that is recognised is found again under its code, which is not 0. -/
theorem modFormatByMagic_code {p : Bytes} (hmagic : modFormatByMagic p = some f) :
    modFormatByCode f.code = some f ∧ f.code ≠ 0 := by
  have hall : ∀ f ∈ formats, modFormatByCode f.code = some f ∧ f.code ≠ 0 := by decide
  exact hall f (List.mem_of_find?_eq_some hmagic)

theorem Settled.first {s : LoadState} {first : Finit} {r : Int} (hhands : Hands h [first])
    (hs : Given [first] s) (hverdict : Verdict r first.errno) : Settled h r s where
  hands := hs.finits ▸ hhands
  result := by
    rw [hs.finits]
    rcases hverdict with ⟨hzero, htaken⟩ | ⟨hneg, hnot⟩
    · exact .inl ⟨hzero, first, List.mem_singleton_self first, htaken⟩
    · exact .inr ⟨hneg, fun c hc => List.mem_singleton.mp hc ▸ hnot⟩

theorem loadCompressedModule_leads (hopen : h.content = some content)
    (hmagic : modFormatByMagic (magicBytes h content) = some f) :
    Leads (Given []) (loadCompressedModule h content f.code) (Settled h)
      (Hangs [refusal content]) := by
  have hhands (errno : Int) := Hands.packed content errno f hopen hmagic
  refine Leads.bind (finitModuleFd_leads h content moduleInitCompressedFile []) fun r => ?_
  refine Leads.ite (fun hzero => Leads.pure fun s hs => ?_) fun hfail => Leads.ite
    (fun _ => Leads.pure fun s hs => ?_) fun hnosupp => ?_
  · exact Settled.first (hhands r.2) hs.1 (hzero ▸ hs.2)
  · refine Settled.first (hhands r.2) hs.1 ?_
    rcases hs.2 with ⟨hzero, -⟩ | ⟨-, hnot⟩
    · exact absurd hzero hfail
    · exact .inr ⟨rfl, hnot⟩
  · have hcode := modFormatByMagic_code hmagic
    refine Leads.conseq (loadDecompressed_leads hopen hmagic hcode.1) (fun s hs => ?_)
      (fun _ _ hs => hs) fun _ he => he
    rw [refusal, ← not_not.mp hnosupp]
    exact hs.1

end

theorem loadModulePath_leads :
    Leads (Given []) (loadModulePath h) (Settled h) fun s =>
      ∃ content, Hands h [refusal content] ∧ Hangs [refusal content] s := by
  unfold loadModulePath
  cases hopen : h.content with
  | none =>
    refine Leads.pure fun s hs => ⟨hs.finits ▸ Hands.unread hopen, .inr ⟨rfl, ?_⟩⟩
    rw [hs.finits]
    exact fun _ hc => nomatch hc
  | some content =>
    cases hmagic : modFormatByMagic (magicBytes h content) with
    | none =>
      have hcomp : decompressMagic (magicBytes h content) = 0 := by rw [decompressMagic, hmagic]; rfl
      refine Leads.ite (fun hne => absurd hcomp hne) fun _ => ?_
      refine Leads.conseq (finishFinit_leads h content []) (fun _ hs => hs) ?_ fun _ he => he
      rintro r s ⟨errno, hcalls, hverdict⟩
      exact Settled.first (Hands.plain content errno hopen hmagic) hcalls hverdict
    | some f =>
      have hcomp : decompressMagic (magicBytes h content) = f.code := by
        rw [decompressMagic, hmagic]
        rfl
      refine Leads.ite (fun _ => ?_) fun hzero => ?_
      · rw [hcomp]
        exact Leads.conseq (loadCompressedModule_leads hopen hmagic) (fun _ hs => hs)
          (fun _ _ hs => hs) fun s he => ⟨content, Hands.packed content _ f hopen hmagic, he⟩
      · exact absurd (hcomp.symm.trans (not_not.mp hzero)) (modFormatByMagic_code hmagic).2

/-- Whatever the calls of the system do: the kernel is handed the file once, and a second
time only what it unpacks to, all of it, after it said that it cannot unpack it. The result
is 0 exactly if the kernel has the module, and only a write without an answer does not
return. -/
theorem loadModulePath_hands (s : LoadState) (hnew : s.finits = []) (hcrc : s.crc.Ok) :
    Hands h ((loadModulePath h).run s).2.finits ∧
      (((loadModulePath h).run s).1 = some 0 ∨ ((loadModulePath h).run s).1 = some (-1) ∨
        (((loadModulePath h).run s).1 = none ∧ ((loadModulePath h).run s).2.writes = [])) ∧
      (((loadModulePath h).run s).1 = some 0 ↔
        ∃ c ∈ ((loadModulePath h).run s).2.finits, Taken c.errno) := by
  obtain ⟨hends, hwaits⟩ := loadModulePath_leads h s ⟨hnew, hcrc⟩
  cases hr : ((loadModulePath h).run s).1 with
  | none =>
    obtain ⟨content, hhands, hhangs⟩ := hwaits hr
    have hcalls : ((loadModulePath h).run s).2.finits = [refusal content] := hhangs.finits
    refine ⟨hcalls ▸ hhands, .inr (.inr ⟨rfl, hhangs.writes⟩), fun hzero => (nomatch hzero), ?_⟩
    rw [hcalls]
    rintro ⟨c, hc, htaken⟩
    exact absurd (List.mem_singleton.mp hc ▸ htaken) (refusal_not_taken content)
  | some r =>
    obtain ⟨hhands, hresult⟩ := hends r hr
    rcases hresult with ⟨rfl, htaken⟩ | ⟨rfl, hnot⟩
    · exact ⟨hhands, .inl rfl, fun _ => htaken, fun _ => rfl⟩
    · refine ⟨hhands, .inr (.inl rfl), fun hzero => absurd (Option.some.inj hzero) (by decide), ?_⟩
      rintro ⟨c, hc, htaken⟩
      exact absurd htaken (hnot c hc)

/-- A packed module, and a kernel that does not unpack. -/
def packedHost : LoadHost where
  content := some textMember
  peek := some 4
  finit := fun _ _ flags => if flags = moduleInitCompressedFile then eopnotsupp else 0
  reader := FileRead.shortReads (fun _ => 4096) fun _ => 0
  memfd := true
  seeks := true
  filters := fun _ => none

/-- The four bytes are written in two parts. -/
def packedState : LoadState where
  writes := [.again, .takes 1, .takes 10]
  crc := Crc32.init
  finits := []

theorem loadModulePath_hands_packed :
    Hands packedHost [⟨textMember, 4, 95⟩, ⟨[116, 101, 115, 116], 0, 0⟩] ∧
      ((loadModulePath packedHost).run packedState).1 = some 0 := by
  have hcalls : ((loadModulePath packedHost).run packedState).2.finits =
      [⟨textMember, 4, 95⟩, ⟨[116, 101, 115, 116], 0, 0⟩] := by decide +kernel
  obtain ⟨hhands, -, hzero⟩ := loadModulePath_hands packedHost packedState rfl Crc32.init_ok
  rw [hcalls] at hhands hzero
  exact ⟨hhands, hzero.mpr ⟨_, List.mem_cons_of_mem _ List.mem_cons_self, .inl rfl⟩⟩

end Cage.Pkg
