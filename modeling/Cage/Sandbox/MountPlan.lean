import Mathlib.Data.Set.NAry
import Cage.Sandbox.MountAll

/-!
What `mount_all` mounts. Whatever its calls are answered, the mounts that it makes are
the first ones of a plan, in the order of the plan, and all of it where it returns 0; and
every path that it changes is below the root of the cage, but for the paths of the host
that the volumes name and the file that holds the default name servers.
-/

namespace Cage.Sandbox.MountAll

open Lib.Program Util

/-- What has been mounted, in order, and the paths of the calls that change something. -/
structure Table where
  mounts : List Mount
  changed : List CStr
  deriving DecidableEq, Repr

/-- What the plan depends on: `read_proc_cgroups`, and `io_islink` of `/dev/shm`. -/
structure MountHost where
  controllers : Option (List CStr)
  shmLink : Int
  deriving DecidableEq, Repr

/-- The path at which a call changes something, if it is known before the call. -/
def MountCall.path : MountCall → Option CStr
  | .ioMkdir p | .ioMkdirOwn p _ _ _ | .ioMkdtmp p _ | .ioTouch p | .ioUnlink p | .ioSymlink _ p
  | .fchmod p _ | .write p _ | .unlink p => some p
  | _ => none

/-- A name that `mkstemp` makes of `dnsTemplate`. -/
def IsTemp (path : CStr) : Prop := lit "/tmp/cage-dns-" <+: path

/-- What the calls do to the table; what the others answer is not said. -/
def Answered (h : MountHost) : (c : MountCall) → Table → c.Ret → Table → Prop
  | .mount m, t, r, t' => t' = if r = 0 then { t with mounts := t.mounts ++ [m] } else t
  | .mkstemp _, t, r, t' =>
      (∀ p ∈ r, IsTemp p) ∧ t' = { t with changed := t.changed ++ r.toList }
  | .readProcCgroups, t, r, t' => r = h.controllers ∧ t' = t
  | .ioIslink p, t, r, t' => (p = lit "/dev/shm" → r = h.shmLink) ∧ t' = t
  | c, t, _, t' => t' = { t with changed := t.changed ++ c.path.toList }

section Plan

variable (h : MountHost) (root : CStr)

def cgroupPlan (hasCgroup : Int) : List Mount :=
  if hasCgroup = -2 then []
  else if hasCgroup ≥ 2 then [cgroup2Of root]
  else if hasCgroup = 1 then cgroupTmpfsOf root :: (h.controllers.getD []).map (cgroup1Of root)
  else []

def shmPlan : List Mount := if h.shmLink = 0 then [] else [shmOf root]

def volumePlan (v : Vol) : List Mount :=
  [volumeOf v.host (memPath root v.target), privateOf (memPath root v.target)]

/-- What stands before the file of the name servers. -/
def fixedPlan : List Mount :=
  let f := msNosuid ||| msNoexec ||| msNodev
  let nd := msNosuid ||| msNodev ||| msNoatime
  [fsOf root (lit "proc") (lit "proc") f none, fsOf root (lit "sys") (lit "sysfs") f none,
    bindOf root (lit "dev") (lit "/dev"),
    fsOf root (lit "run") (lit "tmpfs") (msNosuid ||| msNoexec) (some (lit "mode=0755")),
    fsOf root (lit "tmp") (lit "tmpfs") nd none, fsOf root (lit "var/tmp") (lit "tmpfs") nd none]

/-- The file of the name servers is left as it is, or another is bound over it. -/
def IsDns (ms : List Mount) : Prop := ms = [] ∨ ∃ src, ms = [resolvOf src (resolvPath root)]

/-- All that is mounted in the root of a cage, in order. -/
def mountPlan (cfg : MountCfg) (hasCgroup : Int) (dns : List Mount) : List Mount :=
  fixedPlan root ++ (cgroupPlan h root hasCgroup ++ ((dns ++ shmPlan h root) ++
    cfg.volumes.flatMap (volumePlan root)))

end Plan

/-- The path begins with `root`, and does not go up from there. -/
def Below (root path : CStr) : Prop := ∃ rel, comps path = comps root ++ rel ∧ [dot, dot] ∉ rel

section Makes

variable (h : MountHost) (ok : CStr → Prop)

/-- The mounts `ms` have been made, and only paths that are `ok` were changed. -/
structure Added (ms : List Mount) (t t' : Table) : Prop where
  mounts : t'.mounts = t.mounts ++ ms
  changed : ∃ ps, t'.changed = t.changed ++ ps ∧ ∀ p ∈ ps, ok p

/-- However the calls are answered, `m` makes mounts with `Q` and changes what is `ok`. -/
def Makes {A : Type} (m : MntM A) (Q : A → List Mount → Prop) : Prop :=
  ∀ t, m.Wp (Answered h) (fun a t' => ∃ ms, Added ok ms t t' ∧ Q a ms) t

/-- No mount is made. -/
def Quiet {A : Type} (m : MntM A) : Prop := Makes h ok m fun _ ms => ms = []

/-- The mounts made are one of the plans `P`, or the first ones of it where `m` fails. -/
def Tries (m : MntM Int) (P : Set (List Mount)) : Prop :=
  Makes h ok m fun r ms => r = 0 ∧ ms ∈ P ∨ r ≠ 0 ∧ ∃ p ∈ P, ms <+: p

/-- The same of what fails with -1. -/
def Plans (m : MntM Int) (P : Set (List Mount)) : Prop :=
  Makes h ok m fun r ms => r = 0 ∧ ms ∈ P ∨ r = -1 ∧ ∃ p ∈ P, ms <+: p

variable {h ok} {A B : Type} {ms ms' : List Mount} {t t' t'' : Table}

theorem Added.refl : Added ok [] t t :=
  ⟨(List.append_nil _).symm, [], (List.append_nil _).symm, fun _ hp => absurd hp List.not_mem_nil⟩

theorem Added.trans (h₁ : Added ok ms t t') (h₂ : Added ok ms' t' t'') :
    Added ok (ms ++ ms') t t'' := by
  obtain ⟨ps, hps, hok⟩ := h₁.changed
  obtain ⟨ps', hps', hok'⟩ := h₂.changed
  refine ⟨?_, ps ++ ps', ?_, fun p hp => ?_⟩
  · rw [h₂.mounts, h₁.mounts, List.append_assoc]
  · rw [hps', hps, List.append_assoc]
  · exact (List.mem_append.mp hp).elim (hok p) (hok' p)

theorem Makes.pure {a : A} {Q : A → List Mount → Prop} (ha : Q a []) :
    Makes h ok (Pure.pure a) Q :=
  fun _ => ⟨[], Added.refl, ha⟩

theorem Makes.bind {m : MntM A} {f : A → MntM B} {P : A → List Mount → Prop}
    {Q : B → List Mount → Prop} (hm : Makes h ok m P)
    (hf : ∀ a ms, P a ms → Makes h ok (f a) fun b ms' => Q b (ms ++ ms')) :
    Makes h ok (m >>= f) Q := by
  intro t
  refine Wp.bind m (Wp.mono (fun a t' ha => ?_) m (hm t))
  obtain ⟨ms, hms, ha⟩ := ha
  refine Wp.mono (fun b t'' hb => ?_) _ (hf a ms ha t')
  obtain ⟨ms', hms', hb⟩ := hb
  exact ⟨ms ++ ms', hms.trans hms', hb⟩

theorem Makes.conseq {m : MntM A} {Q Q' : A → List Mount → Prop} (hm : Makes h ok m Q)
    (hQ : ∀ a ms, Q a ms → Q' a ms) : Makes h ok m Q' :=
  fun t => Wp.mono (fun a _ ⟨ms, hms, ha⟩ => ⟨ms, hms, hQ a ms ha⟩) m (hm t)

theorem Makes.ite {c : Prop} [Decidable c] {m n : MntM A} {Q : A → List Mount → Prop}
    (hm : c → Makes h ok m Q) (hn : ¬c → Makes h ok n Q) :
    Makes h ok (if c then m else n) Q := by
  split
  · rename_i hc
    exact hm hc
  · rename_i hc
    exact hn hc

theorem Makes.mount (m : Mount) :
    Makes h ok (MntM.sys (.mount m)) fun r ms => ms = if r = 0 then [m] else [] := by
  intro t r t' hmay
  refine ⟨_, ?_, rfl⟩
  change t' = _ at hmay
  rw [hmay]
  split
  · exact ⟨rfl, [], (List.append_nil _).symm, fun _ hp => absurd hp List.not_mem_nil⟩
  · exact Added.refl

/-- A call that mounts nothing. -/
theorem Quiet.call (htemp : ∀ p, IsTemp p → ok p) {c : MountCall} (hc : ∀ m, c ≠ .mount m)
    (hpath : ∀ p ∈ c.path, ok p) : Quiet h ok (MntM.sys c) := by
  have hadd (ps : List CStr) (hps : ∀ p ∈ ps, ok p) (t : Table) :
      Added ok [] t { t with changed := t.changed ++ ps } :=
    ⟨(List.append_nil _).symm, ps, rfl, hps⟩
  intro t r t' hmay
  refine ⟨[], ?_, rfl⟩
  cases c with
  | mount m => exact absurd rfl (hc m)
  | mkstemp template =>
    obtain ⟨hr, rfl⟩ := hmay
    exact hadd _ (fun p hp => htemp p (hr p (Option.mem_toList.mp hp))) t
  | readProcCgroups =>
    obtain ⟨-, rfl⟩ := hmay
    exact Added.refl
  | ioIslink path =>
    obtain ⟨-, rfl⟩ := hmay
    exact Added.refl
  | _ =>
    cases hmay
    exact hadd _ (fun p hp => hpath p (Option.mem_toList.mp hp)) t

theorem Quiet.pure (a : A) : Quiet h ok (Pure.pure a : MntM A) := Makes.pure rfl

theorem Quiet.bind {m : MntM A} {f : A → MntM B} {Q : B → List Mount → Prop}
    (hm : Quiet h ok m) (hf : ∀ a, Makes h ok (f a) Q) : Makes h ok (m >>= f) Q := by
  refine Makes.bind hm fun a ms hms => ?_
  rw [hms]
  exact hf a

variable {P Q : Set (List Mount)} {m n : MntM Int}

theorem Plans.fail (hP : P.Nonempty) : Plans h ok (pure (-1)) P := by
  obtain ⟨p, hp⟩ := hP
  exact Makes.pure (.inr ⟨rfl, p, hp, List.nil_prefix⟩)

theorem Plans.nothing : Plans h ok (pure 0) {[]} := Makes.pure (.inl ⟨rfl, rfl⟩)

theorem Plans.mono (hm : Plans h ok m P) (hsub : P ⊆ Q) : Plans h ok m Q :=
  Makes.conseq hm fun _ _ hms => hms.imp (And.imp_right fun hp => hsub hp)
    (And.imp_right fun ⟨p, hp, hpre⟩ => ⟨p, hsub hp, hpre⟩)

theorem Tries.mono (hm : Tries h ok m P) (hsub : P ⊆ Q) : Tries h ok m Q :=
  Makes.conseq hm fun _ _ hms => hms.imp (And.imp_right fun hp => hsub hp)
    (And.imp_right fun ⟨p, hp, hpre⟩ => ⟨p, hsub hp, hpre⟩)

theorem Plans.tries (hm : Plans h ok m P) : Tries h ok m P :=
  Makes.conseq hm fun r _ hms => hms.imp id (And.imp_left fun hr : r = -1 => by rw [hr]; decide)

/-- Two parts, the second of them only if the first has done all it plans. -/
theorem Tries.seq (hm : Tries h ok m P) (hn : Plans h ok n Q) (hQ : Q.Nonempty) :
    Plans h ok (do
      let r ← m
      if r ≠ 0 then pure (-1) else n) (Set.image2 (· ++ ·) P Q) := by
  refine Makes.bind hm fun r ms hms => Makes.ite (fun hr => ?_) fun hr => ?_
  · obtain ⟨q, hq⟩ := hQ
    obtain ⟨rfl, -⟩ | ⟨-, p, hp, hpre⟩ := hms
    · exact absurd rfl hr
    · refine Makes.pure (.inr ⟨rfl, p ++ q, ⟨p, hp, q, hq, rfl⟩, ?_⟩)
      rw [List.append_nil]
      exact hpre.trans (List.prefix_append p q)
  · obtain ⟨-, hp⟩ | ⟨hne, -⟩ := hms
    · refine Makes.conseq hn fun r ms' hms' => ?_
      obtain ⟨rfl, hq⟩ | ⟨rfl, q, hq, hpre⟩ := hms'
      · exact .inl ⟨rfl, ms, hp, ms', hq, rfl⟩
      · exact .inr ⟨rfl, ms ++ q, ⟨ms, hp, q, hq, rfl⟩, (List.prefix_append_right_inj ms).mpr hpre⟩
    · exact absurd hne hr

/-- The same where each part plans one thing. -/
theorem Tries.andThen {p q : List Mount} (hm : Tries h ok m {p}) (hn : Plans h ok n {q}) :
    Plans h ok (do
      let r ← m
      if r ≠ 0 then pure (-1) else n) {p ++ q} :=
  (Set.image2_singleton : Set.image2 (· ++ ·) {p} {q} = {p ++ q}) ▸
    hm.seq hn (Set.singleton_nonempty q)

theorem Plans.andThen {p q : List Mount} (hm : Plans h ok m {p}) (hn : Plans h ok n {q}) :
    Plans h ok (do
      let r ← m
      if r ≠ 0 then pure (-1) else n) {p ++ q} := hm.tries.andThen hn

/-- One plan before a family of plans. -/
theorem Plans.before {p : List Mount} {D : Set (List Mount)} {f : List Mount → List Mount}
    (hm : Plans h ok m {p}) (hn : Plans h ok n (f '' D)) (hD : D.Nonempty) :
    Plans h ok (do
      let r ← m
      if r ≠ 0 then pure (-1) else n) ((fun d => p ++ f d) '' D) := by
  have hseq := hm.tries.seq hn (hD.image f)
  rwa [Set.image2_singleton_left, Set.image_image] at hseq

/-- One plan behind a family of plans. -/
theorem Plans.behind {q : List Mount} {D : Set (List Mount)} {f : List Mount → List Mount}
    (hm : Plans h ok m (f '' D)) (hn : Plans h ok n {q}) :
    Plans h ok (do
      let r ← m
      if r ≠ 0 then pure (-1) else n) ((fun d => f d ++ q) '' D) := by
  have hseq := hm.tries.seq hn (Set.singleton_nonempty q)
  rwa [Set.image2_singleton_right, Set.image_image] at hseq

/-- A part whose result is handed on as 0 or -1. -/
theorem Tries.checked (hm : Tries h ok m P) :
    Plans h ok (do
      let r ← m
      if r ≠ 0 then pure (-1) else pure 0) P := by
  have hseq := hm.seq Plans.nothing (Set.singleton_nonempty [])
  simpa only [Set.image2_singleton_right, List.append_nil, Set.image_id'] using hseq

/-- A part that mounts nothing goes before. -/
theorem Plans.after (hm : Quiet h ok m) (hn : Plans h ok n Q) (hQ : Q.Nonempty) :
    Plans h ok (do
      let r ← m
      if r ≠ 0 then pure (-1) else n) Q :=
  Quiet.bind hm fun _ => Makes.ite (fun _ => Plans.fail hQ) fun _ => hn

/-- After `m` something is tidied away, whether it has failed or not. -/
theorem Tries.tidied {tidy : MntM Unit} (hm : Tries h ok m P) (htidy : Quiet h ok tidy) :
    Plans h ok (do
      let r ← m
      tidy
      if r ≠ 0 then pure (-1) else pure 0) P := by
  refine Makes.bind hm fun r ms hms => Quiet.bind htidy fun _ => ?_
  obtain ⟨hr, hp⟩ | ⟨hr, p, hp, hpre⟩ := hms
  · rw [if_neg (not_not.mpr hr)]
    refine Makes.pure (.inl ⟨rfl, ?_⟩)
    rwa [List.append_nil]
  · rw [if_pos hr]
    refine Makes.pure (.inr ⟨rfl, p, hp, ?_⟩)
    rwa [List.append_nil]

theorem Tries.mount (m : Mount) : Tries h ok (MntM.sys (.mount m)) {[m]} := by
  refine Makes.conseq (Makes.mount m) fun r ms hms => ?_
  by_cases hr : r = 0
  · rw [if_pos hr] at hms
    exact .inl ⟨hr, hms⟩
  · rw [if_neg hr] at hms
    exact .inr ⟨hr, [m], rfl, hms ▸ List.nil_prefix⟩

theorem Plans.mount (m : Mount) :
    Plans h ok (do
      let r ← MntM.sys (.mount m)
      if r ≠ 0 then pure (-1) else pure 0) {[m]} := (Tries.mount m).checked

end Makes

variable {root : CStr}

theorem below_memPath {s : CStr} (hs : [dot, dot] ∉ comps s) : Below root (memPath root s) :=
  ⟨comps s, comps_memPath root s, hs⟩

theorem Below.memPath {p s : CStr} (hp : Below root p) (hs : [dot, dot] ∉ comps s) :
    Below root (memPath p s) := by
  obtain ⟨rel, hrel, hup⟩ := hp
  refine ⟨rel ++ comps s, ?_, fun hmem => (List.mem_append.mp hmem).elim hup hs⟩
  rw [comps_memPath, hrel, List.append_assoc]

/-- The last slash of a joined path is not in front of the one that joins it. -/
theorem beforeLastSlash_joined {a s : CStr} {n : Nat}
    (hn : beforeLastSlash (a ++ slash :: s) = some n) :
    ∃ k, (a ++ slash :: s).take n = a ++ (slash :: s).take k := by
  refine ⟨n - a.length, ?_⟩
  have hle : a.length ≤ n := by
    unfold beforeLastSlash at hn
    rw [if_pos (List.mem_append_right _ (List.mem_cons_self ..))] at hn
    have hidx : (a ++ slash :: s).reverse.idxOf slash ≤ s.length := by
      rw [List.reverse_append, List.reverse_cons, List.append_assoc, ← List.length_reverse]
      by_cases hmem : slash ∈ s.reverse
      · rw [List.idxOf_append_of_mem hmem]
        exact List.idxOf_le_length
      · rw [List.idxOf_append_of_notMem hmem, List.singleton_append, List.idxOf_cons_self]
        exact Nat.le_refl _
    have hlen : (a ++ slash :: s).length = a.length + s.length + 1 := by
      rw [List.length_append, List.length_cons, Nat.add_assoc]
    have heq := Option.some.inj hn
    omega
  rw [List.take_append, List.take_of_length_le hle]

/-- What stands before the last slash of a path below the root is below it too. -/
theorem below_beforeLastSlash {s : CStr} {n : Nat} (hs : [dot, dot] ∉ comps s)
    (hn : beforeLastSlash (memPath root s) = some n) : Below root ((memPath root s).take n) := by
  obtain ⟨k, hk⟩ := beforeLastSlash_joined hn
  have hpre := comps_beforeLastSlash hn
  rw [comps_memPath] at hpre
  have hroot : comps root <+: comps ((memPath root s).take n) := by
    rw [Util.memPath, hk]
    cases k with
    | zero =>
      rw [List.take_zero, List.append_nil, comps_trimmed]
    | succ k =>
      rw [List.take_succ_cons, comps_append_slash, comps_trimmed]
      exact List.prefix_append _ _
  obtain ⟨rel, hrel⟩ := hroot
  refine ⟨rel, hrel.symm, fun hup => hs ?_⟩
  rw [← hrel, List.prefix_append_right_inj] at hpre
  exact hpre.subset hup

section Parts

/-- What `mount_all` may change. -/
structure Allows (root : CStr) (ok : CStr → Prop) : Prop where
  temp : ∀ p, IsTemp p → ok p
  below : ∀ p, Below root p → ok p

variable {h : MountHost} {ok : CStr → Prop} {p : CStr}

theorem Allows.ask (hok : Allows root ok) {c : MountCall} (hc : ∀ m, c ≠ .mount m)
    (hpath : c.path = none) : Quiet h ok (MntM.sys c) :=
  Quiet.call hok.temp hc fun p hp => by rw [hpath] at hp; cases hp

theorem Allows.change (hok : Allows root ok) {c : MountCall} (hc : ∀ m, c ≠ .mount m)
    (hpath : c.path = some p) (hp : ok p) : Quiet h ok (MntM.sys c) :=
  Quiet.call hok.temp hc fun q hq => by
    rw [hpath] at hq
    exact Option.mem_some.mp hq ▸ hp

theorem Allows.join (hok : Allows root ok) {s : CStr} (hs : [dot, dot] ∉ comps s) :
    ok (memPath root s) := hok.below _ (below_memPath hs)

theorem ensureDir_quiet (hok : Allows root ok) (hp : ok p) : Quiet h ok (ensureDir p) := by
  refine Quiet.bind (hok.ask nofun rfl) fun e => Makes.ite
    (fun _ => hok.change nofun rfl hp) fun _ => Makes.ite (fun _ => Quiet.pure _) fun _ => ?_
  exact Quiet.bind (hok.ask nofun rfl) fun d => Makes.ite (fun _ => Quiet.pure _) fun _ =>
    Makes.ite (fun _ => Quiet.pure _) fun _ => Quiet.pure _

theorem mountOn_plans (hok : Allows root ok) (hp : ok p) (m : Mount) :
    Plans h ok (mountOn p m) {[m]} := by
  refine Plans.after (ensureDir_quiet hok hp) ?_ (Set.singleton_nonempty _)
  refine Makes.bind (Tries.mount m) fun r ms hms =>
    Makes.ite (fun hr => Makes.pure ?_) fun hr => Makes.pure ?_ <;> rw [List.append_nil]
  · exact .inl ⟨rfl, (hms.resolve_right fun h => h.1 hr).2⟩
  · exact .inr ⟨rfl, (hms.resolve_left fun h => hr h.1).2⟩

theorem mountMade_plans (hok : Allows root ok) (hp : ok p) (m : Mount) :
    Plans h ok (mountMade p m) {[m]} :=
  Plans.after (hok.change nofun rfl hp) (Plans.mount m) (Set.singleton_nonempty _)

theorem mountVirtualFses_plans (hok : Allows root ok) :
    Plans h ok (mountVirtualFses root) {(fixedPlan root).take 2} :=
  Plans.andThen (mountOn_plans hok (hok.join (by decide)) _)
    (mountOn_plans hok (hok.join (by decide)) _)

theorem mountDev_plans (hok : Allows root ok) :
    Plans h ok (mountDev root) {[bindOf root (lit "dev") (lit "/dev")]} :=
  mountOn_plans hok (hok.join (by decide)) _

theorem mountTmpfses_plans (hok : Allows root ok) :
    Plans h ok (mountTmpfses root) {(fixedPlan root).drop 3} :=
  Plans.andThen (mountOn_plans hok (hok.join (by decide)) _)
    (Plans.andThen (mountOn_plans hok (hok.join (by decide)) _)
      (mountOn_plans hok (hok.join (by decide)) _))

section Cgroups

theorem below_cgroupDir : Below root (cgroupDir root) := below_memPath (by decide)

theorem mountCgroupV2_plans (hok : Allows root ok) :
    Plans h ok (mountCgroupV2 root) {[cgroup2Of root]} := by
  have hdir : ok (cgroupDir root) := hok.below _ below_cgroupDir
  refine Quiet.bind (hok.ask nofun rfl) fun e => Makes.ite
    (fun _ => Plans.fail (Set.singleton_nonempty _)) fun _ => ?_
  have hne := Set.singleton_nonempty [cgroup2Of root]
  exact Makes.ite
    (fun _ => Plans.after (hok.change nofun rfl hdir) (Plans.mount (cgroup2Of root)) hne)
    fun _ => Plans.after (Quiet.pure 0) (Plans.mount (cgroup2Of root)) hne

theorem mountControllers_plans (hok : Allows root ok) {ctrls : List CStr}
    (hctrls : ∀ c ∈ ctrls, ok (memPath (cgroupDir root) c)) :
    Plans h ok (mountControllers root ctrls) {ctrls.map (cgroup1Of root)} := by
  induction ctrls with
  | nil => exact Plans.nothing
  | cons ctrl ctrls ih =>
    exact Plans.andThen (mountMade_plans hok (hctrls ctrl (List.mem_cons_self ..)) _)
      (ih fun c hc => hctrls c (List.mem_cons_of_mem _ hc))

theorem Makes.controllers :
    Makes h ok (MntM.sys .readProcCgroups) fun r ms => ms = [] ∧ r = h.controllers := by
  rintro t r t' ⟨hr, rfl⟩
  exact ⟨[], Added.refl, rfl, hr⟩

theorem mountCgroupV1_plans (hok : Allows root ok)
    (hctrls : ∀ ctrls ∈ h.controllers, ∀ c ∈ ctrls, ok (memPath (cgroupDir root) c)) :
    Plans h ok (mountCgroupV1 root)
      {cgroupTmpfsOf root :: (h.controllers.getD []).map (cgroup1Of root)} := by
  refine Plans.andThen (p := [cgroupTmpfsOf root])
    (mountMade_plans hok (hok.below _ below_cgroupDir) _) ?_
  refine Makes.bind Makes.controllers fun r ms hms => ?_
  obtain ⟨rfl, hr⟩ := hms
  cases r with
  | none => exact Plans.fail (Set.singleton_nonempty _)
  | some ctrls =>
    rw [← hr]
    exact mountControllers_plans hok (hctrls ctrls hr.symm)

theorem mountCgroups_plans (hok : Allows root ok)
    (hctrls : ∀ ctrls ∈ h.controllers, ∀ c ∈ ctrls, ok (memPath (cgroupDir root) c)) (hasCgroup : Int) :
    Plans h ok (mountCgroups root hasCgroup) {cgroupPlan h root hasCgroup} := by
  unfold mountCgroups cgroupPlan
  split
  · exact Plans.nothing
  · split
    · exact mountCgroupV2_plans hok
    · split
      · exact mountCgroupV1_plans hok hctrls
      · exact Plans.fail (Set.singleton_nonempty _)

end Cgroups

section Resolv

theorem below_resolvPath : Below root (resolvPath root) := below_memPath (by decide)

theorem createResolvFile_quiet (hok : Allows root ok) :
    Quiet h ok (createResolvFile (resolvPath root)) := by
  have htouch : ok (resolvPath root) := hok.below _ below_resolvPath
  have hend : Quiet h ok (do
      let r ← MntM.sys (.ioTouch (resolvPath root))
      if r ≠ 0 then pure (-1) else pure 1) :=
    Quiet.bind (hok.change nofun rfl htouch) fun r => Makes.ite (fun _ => Quiet.pure _) fun _ =>
      Quiet.pure _
  unfold createResolvFile
  cases hparent : parentOf (resolvPath root) with
  | none => exact Quiet.bind (Quiet.pure 0) fun d => Makes.ite (fun _ => Quiet.pure _) fun _ => hend
  | some p =>
    obtain ⟨n, hn, rfl⟩ := Option.map_eq_some_iff.mp hparent
    have hp : ok ((resolvPath root).take n) := hok.below _ (below_beforeLastSlash (by decide) hn)
    refine Quiet.bind (hok.ask nofun rfl) fun e => Makes.ite (fun _ => ?_) fun _ => ?_
    · exact Quiet.bind (hok.change nofun rfl hp) fun d => Makes.ite (fun _ => Quiet.pure _)
        fun _ => hend
    · exact Quiet.bind (Quiet.pure 0) fun d => Makes.ite (fun _ => Quiet.pure _) fun _ => hend

theorem checkOrCreateResolv_quiet (hok : Allows root ok) (cfg : MountCfg) :
    Quiet h ok (checkOrCreateResolv (resolvPath root) cfg) := by
  have hresolv : ok (resolvPath root) := hok.below _ below_resolvPath
  refine Quiet.bind (hok.ask nofun rfl) fun st => ?_
  cases st with
  | missing => exact createResolvFile_quiet hok
  | failed => exact Quiet.pure _
  | found regular size =>
    cases regular with
    | false =>
      refine Quiet.bind (hok.change nofun rfl hresolv) fun r => Makes.ite
        (fun _ => Quiet.pure _) fun _ => ?_
      exact Quiet.bind (hok.change nofun rfl hresolv) fun r => Makes.ite (fun _ => Quiet.pure _)
        fun _ => Quiet.pure _
    | true =>
      refine Makes.ite (fun _ => Quiet.pure _) fun _ => Makes.ite (fun _ => Quiet.pure _) fun _ => ?_
      refine Quiet.bind (Quiet.bind (hok.ask nofun rfl) fun b => Quiet.pure _) fun has => ?_
      exact Makes.ite (fun _ => Quiet.pure _) fun _ => Makes.ite (fun _ => Quiet.pure _)
        fun _ => Quiet.pure _

/-- Some file is bound over that of the name servers. -/
def dnsPlans (root : CStr) : Set (List Mount) := {ms | ∃ src, ms = [resolvOf src (resolvPath root)]}

theorem dnsPlans_nonempty : (dnsPlans root).Nonempty := ⟨_, [], rfl⟩

theorem Makes.mkstemp (hok : Allows root ok) (template : CStr) :
    Makes h ok (MntM.sys (.mkstemp template)) fun r ms => ms = [] ∧ ∀ p ∈ r, ok p := by
  intro t r t' hmay
  have hr : ∀ p ∈ r, ok p := fun p hp => hok.temp p (hmay.1 p hp)
  have hquiet : Quiet h ok (MntM.sys (.mkstemp template)) := hok.ask nofun rfl
  obtain ⟨ms, hadd, hms⟩ := hquiet t r t' hmay
  exact ⟨ms, hadd, hms, hr⟩

theorem setupResolvFileBind_plans (hok : Allows root ok) :
    Plans h ok (setupResolvFileBind (resolvPath root)) (dnsPlans root) := by
  refine Makes.bind (Makes.mkstemp hok _) fun tmp ms hms => ?_
  obtain ⟨rfl, htmp⟩ := hms
  cases tmp with
  | none => exact Plans.fail dnsPlans_nonempty
  | some tmp =>
    have hok' : ok tmp := htmp tmp rfl
    -- the file is closed, bound if it is whole, and removed either way
    have hend (written : Bool) : Plans h ok (do
        let closed ← MntM.sys (.close tmp)
        let bound ← if written && closed then MntM.sys (.mount (resolvOf tmp (resolvPath root)))
          else pure (-1)
        MntM.sys (.unlink tmp)
        if bound ≠ 0 then pure (-1) else pure 0) (dnsPlans root) := by
      have hunlink : Quiet h ok (MntM.sys (.unlink tmp)) := hok.change nofun rfl hok'
      refine Quiet.bind (hok.ask nofun rfl) fun closed => Makes.ite (fun _ => ?_) fun _ => ?_
      · have hbound : {[resolvOf tmp (resolvPath root)]} ⊆ dnsPlans root := fun _ hms => ⟨tmp, hms⟩
        exact ((Tries.mount _).mono hbound).tidied hunlink
      · exact (Plans.fail dnsPlans_nonempty).tries.tidied hunlink
    refine Quiet.bind (hok.change nofun rfl hok') fun mode => Makes.ite (fun _ => ?_) fun _ => ?_
    · exact Quiet.bind (hok.change nofun rfl hok') hend
    · exact Quiet.bind (Quiet.pure false) hend

theorem setupResolvBind_plans (hok : Allows root ok) :
    Plans h ok (setupResolvBind (resolvPath root)) (dnsPlans root) := by
  refine Quiet.bind (hok.ask nofun rfl) fun src => ?_
  cases src with
  | none => exact Plans.fail dnsPlans_nonempty
  | some src =>
    have htouch : ok (resolvPath root) := hok.below _ below_resolvPath
    refine Plans.after (hok.change nofun rfl htouch) ?_ dnsPlans_nonempty
    exact Plans.mono (Plans.mount _) fun _ hms => ⟨src, hms⟩

theorem setupResolv_plans (hok : Allows root ok) (cfg : MountCfg) :
    Plans h ok (setupResolv root cfg) {ms | IsDns root ms} := by
  have hdns : dnsPlans root ⊆ {ms | IsDns root ms} := fun _ hms => .inr hms
  have hne : {ms | IsDns root ms}.Nonempty := ⟨[], .inl rfl⟩
  refine Quiet.bind (checkOrCreateResolv_quiet hok cfg) fun r => Makes.ite (fun _ => Plans.fail hne)
    fun _ => Makes.ite (fun _ => Makes.pure (.inl ⟨rfl, .inl rfl⟩)) fun _ => ?_
  have hreplace (default : Bool) : Plans h ok (if default then setupResolvFileBind (resolvPath root)
      else setupResolvBind (resolvPath root)) {ms | IsDns root ms} :=
    Makes.ite (fun _ => Plans.mono (setupResolvFileBind_plans hok) hdns)
      fun _ => Plans.mono (setupResolvBind_plans hok) hdns
  refine Makes.ite (fun _ => ?_) fun _ => ?_
  · exact Quiet.bind (Quiet.bind (hok.ask nofun rfl) fun b => Quiet.pure _) hreplace
  · exact Quiet.bind (Quiet.pure false) hreplace

end Resolv

section Misc

theorem setupRunDirs_quiet (hok : Allows root ok) : Quiet h ok (setupRunDirs root) :=
  Quiet.bind (hok.change nofun rfl (hok.join (by decide))) fun _ =>
    Makes.ite (fun _ => Quiet.pure _) fun _ => hok.change nofun rfl (hok.join (by decide))

theorem Makes.shmLink :
    Makes h ok (MntM.sys (.ioIslink (lit "/dev/shm"))) fun r ms => ms = [] ∧ r = h.shmLink := by
  rintro t r t' ⟨hr, rfl⟩
  exact ⟨[], Added.refl, rfl, hr rfl⟩

theorem setupDevshm_plans (hok : Allows root ok) :
    Plans h ok (setupDevshm root) {shmPlan h root} := by
  refine Makes.bind Makes.shmLink fun r ms hms => ?_
  obtain ⟨rfl, hr⟩ := hms
  have hne := Set.singleton_nonempty (shmPlan h root)
  refine Makes.ite (fun _ => Plans.fail hne) fun _ => Makes.ite (fun hzero => ?_) fun hzero => ?_
  · refine Plans.after (hok.change nofun rfl (hok.join (by decide))) ?_ hne
    rw [shmPlan, if_pos (hr ▸ hzero)]
    exact Plans.nothing
  · refine Plans.after (hok.change nofun rfl (hok.join (by decide))) ?_ hne
    rw [shmPlan, if_neg (hr ▸ hzero)]
    exact mountMade_plans hok (hok.join (by decide)) _

theorem mountMisc_plans (hok : Allows root ok) (cfg : MountCfg) :
    Plans h ok (mountMisc root cfg) ((· ++ shmPlan h root) '' {ms | IsDns root ms}) := by
  have hresolv := setupResolv_plans (h := h) hok cfg
  rw [← Set.image_id {ms | IsDns root ms}] at hresolv
  refine hresolv.behind ?_
  exact Plans.after (setupRunDirs_quiet hok) (setupDevshm_plans hok).tries.checked
    (Set.singleton_nonempty _)

end Misc

section Volumes

variable {v : Vol}

/-- The paths that `mount_user_volume` may change. -/
structure VolumeOk (root : CStr) (ok : CStr → Prop) (v : Vol) : Prop where
  host : ok v.host
  guest : ok (memPath root v.target)
  parent : ∀ n, beforeLastSlash (memPath root v.target) = some n →
    ok ((memPath root v.target).take n)

theorem ensureHost_quiet (hok : Allows root ok) (hp : ok p) : Quiet h ok (ensureHost p) :=
  Quiet.bind (hok.ask nofun rfl) fun _ => Makes.ite (fun _ => Quiet.pure _) fun _ =>
    hok.change nofun rfl hp

theorem createGuest_quiet (hok : Allows root ok) (hv : VolumeOk root ok v) (dir : Int) :
    Quiet h ok (createGuest (memPath root v.target) dir) := by
  have htouch : Quiet h ok (MntM.sys (.ioTouch (memPath root v.target))) :=
    hok.change nofun rfl hv.guest
  refine Makes.ite (fun _ => hok.change nofun rfl hv.guest) fun _ => Makes.ite (fun _ => ?_)
    fun _ => Quiet.pure _
  have hnone : Quiet h ok (do
      let made ← pure 0
      if made ≠ 0 then pure (-1) else MntM.sys (.ioTouch (memPath root v.target))) :=
    Quiet.bind (Quiet.pure 0) fun _ => Makes.ite (fun _ => Quiet.pure _) fun _ => htouch
  unfold createGuestFile
  split
  · exact hnone
  · exact hnone
  · rename_i n _ hn
    exact Quiet.bind (hok.change nofun rfl (hv.parent n hn)) fun _ => Makes.ite
      (fun _ => Quiet.pure _) fun _ => htouch

theorem mountUserVolume_plans (hok : Allows root ok) (hv : VolumeOk root ok v) :
    Plans h ok (mountUserVolume v root) {volumePlan root v} := by
  have hne := Set.singleton_nonempty (volumePlan root v)
  refine Plans.after (ensureHost_quiet hok hv.host) ?_ hne
  refine Quiet.bind (hok.ask nofun rfl) fun dir => ?_
  refine Plans.after (createGuest_quiet hok hv dir) (Tries.checked (Plans.tries ?_)) hne
  exact (Tries.mount (volumeOf v.host (memPath root v.target))).andThen (Plans.mount _)

theorem mountVolumes_plans (hok : Allows root ok) {vs : List Vol}
    (hvs : ∀ v ∈ vs, VolumeOk root ok v) :
    Plans h ok (mountVolumes root vs) {vs.flatMap (volumePlan root)} := by
  induction vs with
  | nil => exact Plans.nothing
  | cons v vs ih =>
    exact Plans.andThen (mountUserVolume_plans hok (hvs v (List.mem_cons_self ..)))
      (ih fun w hw => hvs w (List.mem_cons_of_mem _ hw))

end Volumes

theorem mountAll_plans (hok : Allows root ok) {cfg : MountCfg}
    (hctrls : ∀ ctrls ∈ h.controllers, ∀ c ∈ ctrls, ok (memPath (cgroupDir root) c))
    (hvs : ∀ v ∈ cfg.volumes, VolumeOk root ok v) (hasCgroup : Int) :
    Plans h ok (mountAll root cfg hasCgroup)
      (mountPlan h root cfg hasCgroup '' {ms | IsDns root ms}) := by
  have hne : {ms | IsDns root ms}.Nonempty := ⟨[], .inl rfl⟩
  refine (mountVirtualFses_plans hok).before ?_ hne
  refine (mountDev_plans hok).before ?_ hne
  refine (mountTmpfses_plans hok).before ?_ hne
  refine (mountCgroups_plans hok hctrls hasCgroup).before ?_ hne
  exact (mountMisc_plans hok cfg).behind (mountVolumes_plans hok hvs)

end Parts

/-- The mounts that `mount_all` makes are the first ones of the plan, in its order, and
all of them where it returns 0. -/
theorem mountAll_plan (h : MountHost) (root : CStr) (cfg : MountCfg) (hasCgroup : Int)
    (t : Table) :
    (mountAll root cfg hasCgroup).Wp (Answered h) (fun r t' => ∃ dns ms, IsDns root dns ∧
      t'.mounts = t.mounts ++ ms ∧
      (r = 0 ∧ ms = mountPlan h root cfg hasCgroup dns ∨
        r = -1 ∧ ms <+: mountPlan h root cfg hasCgroup dns)) t := by
  have hok : Allows root fun _ => True := ⟨fun _ _ => trivial, fun _ _ => trivial⟩
  have hplans : Plans h (fun _ => True) (mountAll root cfg hasCgroup) _ :=
    mountAll_plans hok (fun _ _ _ _ => trivial)
      (fun _ _ => ⟨trivial, trivial, fun _ _ => trivial⟩) hasCgroup
  refine Wp.mono (fun r t' hend => ?_) _ (hplans t)
  obtain ⟨ms, hadd, ⟨hr, dns, hdns, hms⟩ | ⟨hr, _, ⟨dns, hdns, rfl⟩, hpre⟩⟩ := hend
  · exact ⟨dns, ms, hdns, hadd.mounts, .inl ⟨hr, hms.symm⟩⟩
  · exact ⟨dns, ms, hdns, hadd.mounts, .inr ⟨hr, hpre⟩⟩

section Confined

variable {h : MountHost} {cfg : MountCfg} {hasCgroup : Int} {dns : List Mount}

theorem below_fixedPlan : ∀ m ∈ fixedPlan root, Below root m.target := by
  have hsub {s : CStr} (hs : [dot, dot] ∉ comps s) : Below root (memPath root s) :=
    below_memPath hs
  simp only [fixedPlan, List.forall_mem_cons, fsOf, bindOf]
  exact ⟨hsub (by decide), hsub (by decide), hsub (by decide), hsub (by decide),
    hsub (by decide), hsub (by decide), fun _ hm => absurd hm List.not_mem_nil⟩

theorem below_cgroupPlan
    (hctrls : ∀ ctrls ∈ h.controllers, ∀ c ∈ ctrls, memPathEscapes c = false) :
    ∀ m ∈ cgroupPlan h root hasCgroup, Below root m.target := by
  intro m hm
  unfold cgroupPlan at hm
  split_ifs at hm
  · cases hm
  · rw [List.mem_singleton.mp hm]
    exact below_cgroupDir
  · obtain rfl | hm := List.mem_cons.mp hm
    · exact below_cgroupDir
    · obtain ⟨c, hc, rfl⟩ := List.mem_map.mp hm
      cases hsome : h.controllers with
      | none =>
        rw [hsome] at hc
        cases hc
      | some ctrls =>
        rw [hsome] at hc
        exact below_cgroupDir.memPath (memPathEscapes_false (hctrls ctrls hsome c hc))
  · cases hm

/-- Nothing is planned outside the root. -/
theorem below_mountPlan (hdns : IsDns root dns)
    (hctrls : ∀ ctrls ∈ h.controllers, ∀ c ∈ ctrls, memPathEscapes c = false)
    (hvs : ∀ v ∈ cfg.volumes, memPathEscapes v.target = false) :
    ∀ m ∈ mountPlan h root cfg hasCgroup dns, Below root m.target := by
  intro m hm
  unfold mountPlan at hm
  simp only [List.mem_append, List.mem_flatMap] at hm
  obtain hm | hm | (hm | hm) | ⟨v, hv, hm⟩ := hm
  · exact below_fixedPlan m hm
  · exact below_cgroupPlan hctrls m hm
  · obtain rfl | ⟨src, rfl⟩ := hdns
    · cases hm
    · rw [List.mem_singleton.mp hm]
      exact below_resolvPath
  · unfold shmPlan at hm
    split_ifs at hm
    · cases hm
    · rw [List.mem_singleton.mp hm]
      exact below_memPath (by decide)
  · have hguest : Below root (memPath root v.target) :=
      below_memPath (memPathEscapes_false (hvs v hv))
    obtain rfl | hm := List.mem_cons.mp hm
    · exact hguest
    · rw [List.mem_singleton.mp hm]
      exact hguest

/-- `mount_all` mounts below the root alone. What it changes beside that are the paths of
the host that the volumes name, and its own file of name servers. -/
theorem mountAll_confined {specs : List CStr} (hvols : prepareVolumes specs = some cfg.volumes)
    (hctrls : ∀ ctrls ∈ h.controllers, ∀ c ∈ ctrls, memPathEscapes c = false) (t : Table) :
    (mountAll root cfg hasCgroup).Wp (Answered h) (fun _ t' => ∃ ms ps,
      t'.mounts = t.mounts ++ ms ∧ t'.changed = t.changed ++ ps ∧
      (∀ m ∈ ms, Below root m.target) ∧
      ∀ p ∈ ps, Below root p ∨ IsTemp p ∨ ∃ v ∈ cfg.volumes, p = v.host) t := by
  have hvs := prepareVolumes_stay hvols
  have hok : Allows root fun p => Below root p ∨ IsTemp p ∨ ∃ v ∈ cfg.volumes, p = v.host :=
    ⟨fun _ hp => .inr (.inl hp), fun _ hp => .inl hp⟩
  have hctrl (ctrls : List CStr) (hmem : ctrls ∈ h.controllers) (c : CStr) (hc : c ∈ ctrls) :
      Below root (memPath (cgroupDir root) c) :=
    below_cgroupDir.memPath (memPathEscapes_false (hctrls ctrls hmem c hc))
  have hvolume (v : Vol) (hv : v ∈ cfg.volumes) : VolumeOk root
      (fun p => Below root p ∨ IsTemp p ∨ ∃ v ∈ cfg.volumes, p = v.host) v :=
    ⟨.inr (.inr ⟨v, hv, rfl⟩), hok.join (memPathEscapes_false (hvs v hv)),
      fun _ hn => .inl (below_beforeLastSlash (memPathEscapes_false (hvs v hv)) hn)⟩
  have hplans : Plans h _ (mountAll root cfg hasCgroup) _ :=
    mountAll_plans hok (fun ctrls hmem c hc => .inl (hctrl ctrls hmem c hc)) hvolume hasCgroup
  refine Wp.mono (fun r t' hend => ?_) _ (hplans t)
  obtain ⟨ms, ⟨hmounts, ps, hps, hchanged⟩, hms⟩ := hend
  have hplan : ∃ dns, IsDns root dns ∧ ms <+: mountPlan h root cfg hasCgroup dns := by
    obtain ⟨-, dns, hdns, rfl⟩ | ⟨-, _, ⟨dns, hdns, rfl⟩, hpre⟩ := hms
    · exact ⟨dns, hdns, List.prefix_refl _⟩
    · exact ⟨dns, hdns, hpre⟩
  obtain ⟨dns, hdns, hpre⟩ := hplan
  exact ⟨ms, ps, hmounts, hps,
    fun m hm => below_mountPlan hdns hctrls hvs m (hpre.subset hm), hchanged⟩

theorem mountAll_confined_volume :
    (mountAll (lit "/tmp/cage-1") ⟨true, [⟨lit "/data", lit "/mnt"⟩]⟩ 1).Wp
      (Answered ⟨some [lit "cpu"], 1⟩) (fun _ t' => ∃ ms ps, t'.mounts = [] ++ ms ∧
        t'.changed = [] ++ ps ∧ (∀ m ∈ ms, Below (lit "/tmp/cage-1") m.target) ∧
        ∀ p ∈ ps, Below (lit "/tmp/cage-1") p ∨ IsTemp p ∨
          ∃ v ∈ [Vol.mk (lit "/data") (lit "/mnt")], p = v.host) ⟨[], []⟩ := by
  have hvols : prepareVolumes [lit "/data:/mnt"] =
      some (MountCfg.mk true [⟨lit "/data", lit "/mnt"⟩]).volumes := by decide
  refine mountAll_confined hvols ?_ ⟨[], []⟩
  rintro _ ⟨⟩ c hc
  rw [List.mem_singleton.mp hc]
  decide

end Confined

end Cage.Sandbox.MountAll
