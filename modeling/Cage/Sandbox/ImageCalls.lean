import Cage.Sandbox.Ext4Fix

/-!
Which calls the code of the loop image makes, whatever the answers to them.
-/

namespace Cage.Sandbox

open Lib.Program Util Ext4

section Calls

variable {ok : Call → Prop} {path : CStr}

theorem only_ioExists (h : ok (.access path)) : Only ok (Steps.ioExists path) := by
  refine Only.bind Only.get fun cache => Only.ite (fun _ => Only.pure _) fun _ => ?_
  refine Only.bind (Only.perform h) fun r => Only.ite (fun _ => ?_) fun _ => Only.pure _
  exact Only.bind (Only.modify _) fun _ => Only.pure _

theorem only_ioUnlinkQuiet (h : ok (.unlink path)) : Only ok (Steps.ioUnlinkQuiet path) := by
  refine Only.bind (Only.perform h) fun r => Only.ite (fun _ => Only.pure _) fun _ => ?_
  exact Only.bind (Only.modify _) fun _ => Only.pure _

theorem only_ioUnlink (h : ok (.unlink path)) : Only ok (Steps.ioUnlink path) := by
  refine Only.bind (Only.perform h) fun r => ?_
  cases r with
  | some _ => exact Only.pure _
  | none => exact Only.bind (Only.modify _) fun _ => Only.pure _

theorem only_mkdirExisting (hstat : ok (.stat path)) : Only ok (Steps.mkdirExisting path) := by
  have hcheck : Only ok (Steps.mkdirCheckExisting path) := by
    refine Only.bind (Only.bind (Only.perform hstat) fun st => ?_) fun d => ?_
    · cases st with
      | error _ => exact Only.pure _
      | ok st => exact Only.pure _
    · exact Only.ite (fun _ => Only.pure _) fun _ =>
        Only.ite (fun _ => Only.pure _) fun _ => Only.pure _
  refine Only.bind hcheck fun r => Only.ite (fun _ => ?_) fun _ => Only.pure _
  exact Only.bind (Only.modify _) fun _ => Only.pure _

theorem only_mkdirDepth (hmkdir : ∀ p m, ok (.mkdir p m)) (hstat : ∀ p, ok (.stat p)) (n : Nat)
    (path : CStr) : Only ok (Steps.mkdirDepth n path) := by
  induction n generalizing path with
  | zero => exact Only.pure _
  | succ n ih =>
    have hparent : Only ok (Steps.mkdirParent (Steps.mkdirDepth n) path) := by
      unfold Steps.mkdirParent
      split
      · exact Only.pure _
      · exact Only.ite (fun _ => Only.pure _) fun _ =>
          Only.ite (fun _ => Only.pure _) fun _ => ih _
    have hdeep : Only ok (Steps.mkdirDeep (Steps.mkdirDepth n) path) := by
      refine Only.bind hparent fun r => Only.ite (fun _ => Only.pure _) fun _ => ?_
      refine Only.bind (Only.bind (Only.perform (hmkdir _ _)) fun r => ?_) fun r => ?_
      · cases r with
        | some _ => exact Only.pure _
        | none => exact Only.pure _
      · refine Only.ite (fun _ => ?_) fun _ => Only.pure _
        exact Only.bind (Only.modify _) fun _ => Only.pure _
    refine Only.bind (Only.perform (hmkdir _ _)) fun r => ?_
    match r with
    | none => exact Only.bind (Only.modify _) fun _ => Only.pure _
    | some .eexist => exact only_mkdirExisting (hstat path)
    | some .enoent => exact hdeep
    | some .eacces => exact Only.pure _
    | some .other => exact Only.pure _

theorem allCalls_onFile {A : Type} {fd : Fd} (h : ∀ call, ok (.file fd call)) (m : Img A) :
    (onFile fd m).AllCalls ok := by
  induction m with
  | done a => trivial
  | call call next ih => exact ⟨h call, ih⟩

/-- The calls on an open file, and those that read no file. -/
def OpenFile : Call → Prop
  | .ftruncate _ _ => True
  | .fstat _ => True
  | .file _ _ => True
  | .close _ => True
  | .getrandom _ => True
  | .time => True
  | _ => False

variable (hopen : ∀ call, OpenFile call → ok call)

include hopen in
theorem allCalls_perform (call : Call) (h : OpenFile call) :
    (Lib.Program.perform call : Prog Call Call.Ret call.Ret).AllCalls ok :=
  ⟨hopen call h, fun _ => trivial⟩

include hopen in
theorem allCalls_genUuid : genUuid.AllCalls ok := by
  refine AllCalls.bind (allCalls_perform hopen (.getrandom 16) trivial) fun r => ?_
  cases r with
  | none => trivial
  | some uuid => trivial

include hopen in
theorem allCalls_fillImg (fd : Fd) : (fillImg fd).AllCalls ok := by
  refine AllCalls.bind (allCalls_perform hopen (.ftruncate fd _) trivial) fun done => ?_
  split
  · trivial
  · refine AllCalls.bind (allCalls_genUuid hopen) fun uuid => ?_
    cases uuid with
    | none => trivial
    | some uuid =>
      refine AllCalls.bind (allCalls_genUuid hopen) fun hashSeed => ?_
      cases hashSeed with
      | none => trivial
      | some hashSeed =>
        refine AllCalls.bind (allCalls_perform hopen .time trivial) fun now => ?_
        exact allCalls_onFile (fun _ => hopen _ trivial) _

include hopen in
theorem only_createImg (hcreate : ∀ mode, ok (.create path mode)) (hunlink : ok (.unlink path)) :
    Only ok (ext4CreateImg path) := by
  refine Only.bind (Only.perform (hcreate _)) fun fd => ?_
  cases fd with
  | none => exact Only.pure _
  | some fd =>
    refine Only.bind (Only.lift (allCalls_fillImg hopen fd)) fun rc => ?_
    refine Only.bind (Only.perform (hopen _ trivial)) fun _ => Only.ite (fun _ => ?_) fun _ => Only.pure _
    exact Only.bind (only_ioUnlink hunlink) fun _ => Only.pure _

include hopen in
theorem only_imageValid (hread : ok (.openRead path)) : Only ok (ext4ImageValid path) := by
  refine Only.bind (Only.perform hread) fun fd => ?_
  cases fd with
  | none => exact Only.pure _
  | some fd =>
    have hvalid : (imgValid fd).AllCalls ok := by
      refine AllCalls.bind (allCalls_perform hopen (.fstat fd) trivial) fun size => ?_
      split
      · trivial
      · exact AllCalls.bind (allCalls_perform hopen (.file fd _) trivial) fun _ => trivial
    refine Only.bind (Only.lift hvalid) fun valid => ?_
    exact Only.bind (Only.perform (hopen _ trivial)) fun _ => Only.pure _

include hopen in
theorem only_buildImg {img : CStr} {pid : Nat} (hcreate : ∀ mode, ok (.create (tmpName img pid) mode))
    (hunlink : ok (.unlink (tmpName img pid))) (hrename : ok (.rename (tmpName img pid) img)) :
    Only ok (buildExt4Img pid img) := by
  refine Only.ite (fun _ => Only.pure _) fun _ => ?_
  refine Only.bind (only_ioUnlinkQuiet hunlink) fun _ => ?_
  refine Only.bind (only_createImg hopen hcreate hunlink) fun rc => Only.ite (fun _ => ?_) fun _ => ?_
  · exact Only.bind (only_ioUnlinkQuiet hunlink) fun _ => Only.pure _
  · refine Only.bind (Only.perform hrename) fun r => ?_
    cases r with
    | some _ => exact Only.bind (only_ioUnlinkQuiet hunlink) fun _ => Only.pure _
    | none => exact Only.pure _

include hopen in
theorem only_setupImg {img : CStr} {pid : Nat} (haccess : ok (.access img))
    (hread : ok (.openRead img)) (hcreate : ∀ mode, ok (.create (tmpName img pid) mode))
    (hunlink : ok (.unlink (tmpName img pid))) (hrename : ok (.rename (tmpName img pid) img)) :
    Only ok (setupExt4Img pid img) := by
  have hbuild := only_buildImg hopen hcreate hunlink hrename
  refine Only.bind (only_ioExists haccess) fun e => Only.ite (fun _ => Only.pure _) fun _ => ?_
  refine Only.ite (fun _ => ?_) fun _ => hbuild
  exact Only.bind (only_imageValid hopen hread) fun valid =>
    Only.ite (fun _ => Only.pure _) fun _ => hbuild

end Calls

end Cage.Sandbox
