import Cage.Lib.Descent
import Cage.Util.IoAtSafe

/-!
What the creators of `src/util/io_at.c` do to objects that were there before: on any
path, with `.` and `..` as well, they change the owner of the last component, and
nothing else.
-/

namespace Cage.Util.At

open Cage.Lib.Hoare Cage.Lib.Descent

/-- Nothing that was there has been changed, and nobody has tried to. -/
structure Spares (g₀ g : Guest) : Prop where
  objs : ∀ l o, g₀.objs.lookup l = some o → g.objs.lookup l = some o
  chowned : ∀ l, ⟨.chowned, .under l⟩ ∈ g.touched →
    ⟨.chowned, .under l⟩ ∈ g₀.touched ∨ g₀.objs.lookup l = none

/-- The object at `leaf` has got an owner, and nothing else has been changed. -/
structure SparesBut (g₀ g : Guest) (leaf : Loc) (uid gid : UInt32) : Prop where
  objs : ∀ l o, l ≠ leaf → g₀.objs.lookup l = some o → g.objs.lookup l = some o
  last : ∀ o, g₀.objs.lookup leaf = some o →
    g.objs.lookup leaf = some { o with uid := chowned uid o.uid, gid := chowned gid o.gid }
  chowned : ∀ l, ⟨.chowned, .under l⟩ ∈ g.touched →
    ⟨.chowned, .under l⟩ ∈ g₀.touched ∨ g₀.objs.lookup l = none ∨ l = leaf
  touched : ⟨.chowned, .under leaf⟩ ∈ g.touched

/-- What a creator that returns `r` has done: the owner of the last component is changed
when it succeeds with ids other than 0:0. -/
structure Left (g₀ : Guest) (leaf : Loc) (uid gid : UInt32) (r : Int) (g : Guest) : Prop where
  spares : r ≠ 0 ∨ uid = 0 ∧ gid = 0 → Spares g₀ g
  changes : r = 0 → ¬(uid = 0 ∧ gid = 0) → SparesBut g₀ g leaf uid gid

/-- As `Spares`, with the directory `m` open as `cur`. -/
def Opened (g₀ : Guest) (cur : Nat) (m : Loc) (g : Guest) : Prop :=
  Spares g₀ g ∧ g.fds.lookup cur = some (.under m)

section

variable {g₀ g g' : Guest} {cur fd rootfd : Nat} {m leaf : Loc} {name : CStr} {uid gid : UInt32}

theorem Spares.refl (g : Guest) : Spares g g := ⟨fun _ _ h => h, fun _ h => Or.inl h⟩

theorem Spares.look (h : Spares g₀ g) (hobjs : g'.objs = g.objs)
    (htouched : g'.touched = g.touched) : Spares g₀ g' := by
  refine ⟨?_, ?_⟩
  · rw [hobjs]
    exact h.objs
  · rw [htouched]
    exact h.chowned

theorem Spares.missing (h : Spares g₀ g) {l : Loc} (hl : g.objs.lookup l = none) :
    g₀.objs.lookup l = none := by
  cases hl₀ : g₀.objs.lookup l with
  | none => rfl
  | some o =>
    rw [h.objs l o hl₀] at hl
    cases hl

theorem Spares.put (h : Spares g₀ g) {l : Loc} {o : Obj} (hl : g₀.objs.lookup l = none) :
    Spares g₀ (g.put l o) := by
  refine ⟨fun x ox hx => ?_, h.chowned⟩
  have hne : x ≠ l := by
    rintro rfl
    rw [hl] at hx
    cases hx
  rw [put_of_ne g o hne]
  exact h.objs x ox hx

theorem Spares.touch (h : Spares g₀ g) {deed : Deed} {place : Place}
    (hdeed : deed = .chowned → ∀ l, place = .under l → g₀.objs.lookup l = none) :
    Spares g₀ (g.touch deed place) := by
  refine ⟨h.objs, fun l hl => ?_⟩
  rcases List.mem_append.mp hl with hold | hnew
  · exact h.chowned l hold
  · have heq := List.mem_singleton.mp hnew
    injection heq with hd hp
    exact Or.inr (hdeed hd.symm l hp.symm)

theorem Opened.tick (h : Opened g₀ cur m g) : Opened g₀ cur m (At.tick g).2 := by
  obtain ⟨hobjs, hfds, htouched⟩ := tick_eq g
  refine ⟨h.1.look hobjs htouched, ?_⟩
  rw [hfds]
  exact h.2

/-- A name in an open directory leads to where it leads in a tree without links, or out
of the tree, or nowhere. -/
theorem resolve_open (h : g.fds.lookup fd = some (.under m)) (name : CStr) :
    At.resolve g fd name true = none ∨
      At.resolve g fd name true = some (.under (move dots m name)) ∨
      ∃ path, At.resolve g fd name true = some (.beyond path) := by
  have hmove : move dots m name = if name = [dot] then m else
      if name = [dot, dot] then m.dropLast else m ++ [name] := rfl
  rw [hmove]
  unfold At.resolve
  rw [h]
  dsimp only
  by_cases hhere : name = [dot]
  · rw [if_pos hhere, if_pos hhere]
    exact Or.inr (Or.inl rfl)
  · rw [if_neg hhere, if_neg hhere]
    by_cases hup : name = [dot, dot]
    · rw [if_pos hup, if_pos hup]
      split
      · exact Or.inr (Or.inr ⟨name, rfl⟩)
      · exact Or.inr (Or.inl rfl)
    · rw [if_neg hup, if_neg hup]
      split
      · right
        left
        split <;> rfl
      · exact Or.inl rfl

/-- A call in an open directory fails, or does what it does at one of these places. -/
theorem call_open (h : Opened g₀ cur m g) {A : Type} (failed : A) (name : CStr)
    (f : Place → Guest → A × Guest) :
    At.call failed cur name true f g = (failed, (At.tick g).2) ∨
      At.call failed cur name true f g = f (.under (move dots m name)) (At.tick g).2 ∨
      ∃ path, At.call failed cur name true f g = f (.beyond path) (At.tick g).2 := by
  unfold At.call
  split
  · exact Or.inl rfl
  · rcases resolve_open h.tick.2 name with hnone | hunder | ⟨path, hbeyond⟩
    · rw [hnone]
      exact Or.inl rfl
    · rw [hunder]
      exact Or.inr (Or.inl rfl)
    · rw [hbeyond]
      exact Or.inr (Or.inr ⟨path, rfl⟩)

theorem sysFstatat_open : Keeps (Opened g₀ cur m) (sysFstatat cur name) := by
  intro g h
  unfold sysFstatat
  rcases call_open h _ name _ with hcall | hcall | ⟨path, hcall⟩
  all_goals
    rw [hcall]
    exact h.tick

theorem sysMkdirat_open (mode : Nat) :
    Triple (Opened g₀ cur m) (sysMkdirat cur name mode) fun r g =>
      Opened g₀ cur m g ∧ (r = none → g₀.objs.lookup (move dots m name) = none) := by
  intro g h
  unfold sysMkdirat
  rcases call_open h _ name _ with hcall | hcall | ⟨path, hcall⟩
  · rw [hcall]
    exact ⟨h.tick, fun hr => by cases hr⟩
  · rw [hcall]
    dsimp only
    cases hl : (At.tick g).2.objs.lookup (move dots m name) with
    | some o => exact ⟨h.tick, fun hr => by cases hr⟩
    | none =>
      have hnone := h.tick.1.missing hl
      exact ⟨⟨(h.tick.1.put hnone).touch fun hd => (by cases hd), h.tick.2⟩, fun _ => hnone⟩
  · rw [hcall]
    exact ⟨⟨h.tick.1.touch fun hd => (by cases hd), h.tick.2⟩, fun hr => by cases hr⟩

/-- The owner of something that was not there before. -/
theorem sysFchownat_new (hnew : g₀.objs.lookup (move dots m name) = none) :
    Keeps (Opened g₀ cur m) (sysFchownat cur name uid gid) := by
  intro g h
  unfold sysFchownat
  rcases call_open h _ name _ with hcall | hcall | ⟨path, hcall⟩
  · rw [hcall]
    exact h.tick
  · rw [hcall]
    dsimp only
    cases hl : (At.tick g).2.objs.lookup (move dots m name) with
    | none => exact h.tick
    | some o =>
      refine ⟨(h.tick.1.put hnew).touch fun _ l hl => ?_, h.tick.2⟩
      injection hl with hl
      rw [← hl]
      exact hnew
  · rw [hcall]
    exact ⟨h.tick.1.touch fun _ l hl => (by cases hl), h.tick.2⟩

theorem SparesBut.look {g' : Guest} (h : SparesBut g₀ g leaf uid gid) (hobjs : g'.objs = g.objs)
    (htouched : g'.touched = g.touched) : SparesBut g₀ g' leaf uid gid := by
  constructor
  · rw [hobjs]
    exact h.objs
  · rw [hobjs]
    exact h.last
  · rw [htouched]
    exact h.chowned
  · rw [htouched]
    exact h.touched

theorem sysFchownat_leaf :
    Triple (Opened g₀ cur m) (sysFchownat cur name uid gid) fun r g =>
      (r ≠ 0 → Spares g₀ g) ∧ (r = 0 → SparesBut g₀ g (move dots m name) uid gid) := by
  intro g h
  have hneg : (-1 : Int) ≠ 0 := by decide
  unfold sysFchownat
  rcases call_open h _ name _ with hcall | hcall | ⟨path, hcall⟩
  · rw [hcall]
    exact ⟨fun _ => h.tick.1, fun hr => absurd hr hneg⟩
  · rw [hcall]
    dsimp only
    cases hl : (At.tick g).2.objs.lookup (move dots m name) with
    | none => exact ⟨fun _ => h.tick.1, fun hr => absurd hr hneg⟩
    | some o =>
      refine ⟨fun hr => absurd rfl hr, fun _ => ⟨fun x ox hx hox => ?_, fun o₀ ho₀ => ?_,
        fun x hx => ?_, ?_⟩⟩
      · exact (put_of_ne _ _ hx).trans (h.tick.1.objs x ox hox)
      · have hsame := h.tick.1.objs _ o₀ ho₀
        rw [hl] at hsame
        cases hsame
        exact put_self _ _ _
      · rcases List.mem_append.mp hx with hold | hnew
        · exact (h.tick.1.chowned x hold).imp_right Or.inl
        · have heq := List.mem_singleton.mp hnew
          injection heq with _ hp
          injection hp with hp
          exact Or.inr (Or.inr hp)
      · exact List.mem_append_right _ (List.mem_singleton_self _)
  · rw [hcall]
    exact ⟨fun _ => h.tick.1.touch fun _ l hl => (by cases hl), fun hr => absurd hr hneg⟩

theorem createDirComponent_open (o : Owner) :
    Keeps (Opened g₀ cur m) (createDirComponent cur name o) := by
  refine Triple.bind (sysMkdirat_open 0o755) fun r => ?_
  refine Triple.ite (fun _ => Triple.pure fun g hg => hg.1) fun hr => ?_
  obtain rfl : r = none := of_not_not hr
  refine Triple.ite (fun _ g hg => ?_) fun _ => Triple.pure fun g hg => hg.1
  have hchown : Keeps (Opened g₀ cur m)
      (do
        let c ← sysFchownat cur name o.uid o.gid
        if c ≠ 0 then pure (-1) else pure 0) := by
    refine Keeps.bind (sysFchownat_new (hg.2 rfl)) fun c => ?_
    exact Keeps.ite (fun _ => Keeps.pure _) fun _ => Keeps.pure _
  exact hchown g hg.1

/-- The next directory is open as `fd`. -/
def OpenedNext (g₀ : Guest) (cur : Nat) (m : Loc) (name : CStr) (r : Option Nat) (g : Guest) :
    Prop :=
  Opened g₀ cur m g ∧
    ∀ fd, r = some fd → fd ≠ cur ∧ g.fds.lookup fd = some (.under (move dots m name))

theorem openFd_open (h : Opened g₀ cur m g) (place : Place) :
    Opened g₀ cur m (g.openFd place).2 ∧ g.freshFd ≠ cur ∧
      (g.openFd place).2.fds.lookup g.freshFd = some place := by
  have hne : g.freshFd ≠ cur := by
    intro heq
    refine freshFd_notMem g ?_
    rw [heq, ← AList.mem_keys, ← AList.lookup_isSome, h.2]
    rfl
  have htouch : Spares g₀ (g.touch .opened place) := h.1.touch fun hd => by cases hd
  exact ⟨⟨htouch.look rfl rfl, (AList.lookup_insert_ne hne.symm).trans h.2⟩, hne,
    AList.lookup_insert _⟩

theorem openComponentNofollow_open :
    Triple (Opened g₀ cur m) (openComponentNofollow cur name) (OpenedNext g₀ cur m name) := by
  intro g h
  have hnone {g : Guest} (h : Opened g₀ cur m g) : OpenedNext g₀ cur m name none g :=
    ⟨h, fun fd hfd => by cases hfd⟩
  unfold openComponentNofollow sysOpenat
  rcases call_open h _ name _ with hcall | hcall | ⟨path, hcall⟩
  · rw [hcall]
    exact hnone h.tick
  · rw [hcall]
    dsimp only
    cases hkind : ((At.tick g).2.objs.lookup (move dots m name)).map Obj.kind with
    | none => exact hnone h.tick
    | some kind =>
      cases kind with
      | file | link => exact hnone h.tick
      | dir =>
        obtain ⟨hopen, hne, hfd⟩ := openFd_open h.tick (.under (move dots m name))
        refine ⟨hopen, fun fd heq => ?_⟩
        cases heq
        exact ⟨hne, hfd⟩
  · rw [hcall]
    exact hnone ⟨h.tick.1.touch fun hd => (by cases hd), h.tick.2⟩

theorem ensureDirComponent_open (o : Owner) :
    Triple (Opened g₀ cur m) (ensureDirComponent cur name o) (OpenedNext g₀ cur m name) := by
  have hnone : Triple (Opened g₀ cur m) (pure none) (OpenedNext g₀ cur m name) :=
    Triple.pure fun g h => ⟨h, fun fd hfd => by cases hfd⟩
  refine Triple.bind sysFstatat_open fun st => ?_
  cases st with
  | some kind => exact Triple.ite (fun _ => hnone) fun _ => openComponentNofollow_open
  | none =>
    refine Triple.bind (createDirComponent_open o) fun r => ?_
    exact Triple.ite (fun _ => hnone) fun _ => openComponentNofollow_open

theorem releaseParent_spares : Keeps (Spares g₀) (releaseParent cur rootfd) :=
  Keeps.ite (fun _ _ h => h.look rfl rfl) fun _ => Keeps.pure _

theorem releaseParent_next {r : Option Nat} (hr : r = some fd) :
    Triple (OpenedNext g₀ cur m name r) (releaseParent cur rootfd)
      fun _ g => Opened g₀ fd (move dots m name) g := by
  refine Triple.ite (fun _ g h => ?_) fun _ => Triple.pure fun g h => ⟨h.1.1, (h.2 fd hr).2⟩
  obtain ⟨hne, hfd⟩ := h.2 fd hr
  exact ⟨h.1.1.look rfl rfl, (AList.lookup_erase_ne hne).trans hfd⟩

/-- The descent ends in the directory of the last component. -/
def Reached (g₀ : Guest) (l : Loc) (r : Option (Nat × CStr)) (g : Guest) : Prop :=
  Spares g₀ g ∧ ∀ parent leaf, r = some (parent, leaf) →
    ∃ m, g.fds.lookup parent = some (.under m) ∧ move dots m leaf = l

theorem descendLoop_open (o : Owner) {n : Nat} {p : CStr} :
    Triple (Opened g₀ cur m) (descendLoop rootfd o n cur p)
      (Reached g₀ (Lib.Descent.resolve dots m (comps p))) := by
  induction n generalizing cur p m with
  | zero => exact Triple.pure fun g h => ⟨h.1, fun parent leaf hr => by cases hr⟩
  | succ n ih =>
    have hstop {l : Loc} : Triple (Spares g₀)
        (do
          releaseParent cur rootfd
          pure none) (Reached g₀ l) := by
      refine Triple.bind releaseParent_spares fun _ => Triple.pure fun g h => ?_
      exact ⟨h, fun parent leaf hr => by cases hr⟩
    have hstop' {l : Loc} := (hstop (l := l)).conseq (fun g (h : Opened g₀ cur m g) => h.1)
      fun _ _ hq => hq
    rcases nextComp_spec p with ⟨hrc, -⟩ | ⟨hrc, -⟩ | ⟨hrc, hcomps, -⟩
    · refine Triple.ite (fun hpos => ?_) fun _ => hstop'
      rw [hrc] at hpos
      exact absurd hpos (by decide)
    · refine Triple.ite (fun hpos => ?_) fun _ => hstop'
      rw [hrc] at hpos
      exact absurd hpos (by decide)
    · rw [hcomps]
      refine Triple.ite (fun _ => ?_) fun hpos => absurd (by rw [hrc]; decide) hpos
      refine Triple.ite (fun hlast => ?_) fun _ => ?_
      · -- nothing follows the component
        have hrest : comps (nextComp p).1 = [] := by
          rcases nextComp_spec (nextComp p).1 with ⟨-, hnil⟩ | ⟨hneg, -⟩ | ⟨hone, -⟩
          · exact hnil
          · unfold noMoreComponents at hlast
            rw [hneg] at hlast
            exact absurd hlast (by decide)
          · unfold noMoreComponents at hlast
            rw [hone] at hlast
            exact absurd hlast (by decide)
        refine Triple.pure fun g h => ⟨h.1, fun parent leaf hr => ?_⟩
        cases hr
        refine ⟨m, h.2, ?_⟩
        rw [hrest]
        rfl
      · refine Triple.bind (ensureDirComponent_open o) fun fd => ?_
        cases fd with
        | none => exact hstop.conseq (fun g h => h.1.1) fun _ _ hq => hq
        | some fd => exact Triple.bind (releaseParent_next rfl) fun _ => ih

theorem chownLeaf_left {uid gid : UInt32} :
    Triple (Opened g₀ cur m) (chownLeaf cur name uid gid) (Left g₀ (move dots m name) uid gid) := by
  have hneg : (-1 : Int) ≠ 0 := by decide
  refine Triple.ite (fun hids => Triple.pure fun g h => ⟨fun _ => h.1, fun _ hno => absurd hids hno⟩)
    fun hids => ?_
  refine Triple.bind sysFchownat_leaf fun c => ?_
  refine Triple.ite (fun hc => Triple.pure fun g h => ?_) fun hc => Triple.pure fun g h => ?_
  · exact ⟨fun _ => h.1 hc, fun hr => absurd hr hneg⟩
  · exact ⟨fun hr => absurd rfl (hr.resolve_right hids), fun _ _ => h.2 (of_not_not hc)⟩

/-- Nothing has been changed, and -1 is returned. -/
theorem left_failed {l : Loc} : Triple (Spares g₀) (pure (-1)) (Left g₀ l uid gid) :=
  Triple.pure fun _ h => ⟨fun _ => h, fun hr => absurd hr (by decide)⟩

theorem mkdirLeaf_left (o : Owner) (mode : Nat) :
    Triple (Opened g₀ cur m) (mkdirLeaf cur name o mode) (Left g₀ (move dots m name) o.uid o.gid) := by
  refine Triple.bind (sysMkdirat_open mode) fun r => ?_
  refine Triple.ite (fun _ => ?_) fun _ => ?_
  · exact left_failed.conseq (fun g h => h.1.1) fun _ _ hq => hq
  · exact chownLeaf_left.conseq (fun g h => h.1) fun _ _ hq => hq

theorem touchLeaf_left :
    Triple (Opened g₀ cur m)
      (do
        let fd ← sysOpenat cur name { nofollow := true, directory := false, creat := true }
        match fd with
        | none => pure (-1)
        | some fd => do
            sysClose fd
            chownLeaf cur name uid gid) (Left g₀ (move dots m name) uid gid) := by
  have hopen : Triple (Opened g₀ cur m)
      (sysOpenat cur name { nofollow := true, directory := false, creat := true })
      (OpenedNext g₀ cur m name) := by
    intro g h
    have hnone {g : Guest} (h : Opened g₀ cur m g) : OpenedNext g₀ cur m name none g :=
      ⟨h, fun fd hfd => by cases hfd⟩
    have hsome {g : Guest} (h : Opened g₀ cur m g) : OpenedNext g₀ cur m name
        (g.openFd (.under (move dots m name))).1 (g.openFd (.under (move dots m name))).2 := by
      obtain ⟨hopen, hne, hfd⟩ := openFd_open h (.under (move dots m name))
      refine ⟨hopen, fun fd heq => ?_⟩
      cases heq
      exact ⟨hne, hfd⟩
    unfold sysOpenat
    rcases call_open h _ name _ with hcall | hcall | ⟨path, hcall⟩
    · rw [hcall]
      exact hnone h.tick
    · rw [hcall]
      dsimp only
      cases hl : (At.tick g).2.objs.lookup (move dots m name) with
      | none =>
        refine hsome ⟨(h.tick.1.put (h.tick.1.missing hl)).touch fun hd => (by cases hd), h.tick.2⟩
      | some o =>
        cases hkind : o.kind with
        | dir | link =>
          rw [Option.map_some, hkind]
          exact hnone h.tick
        | file =>
          rw [Option.map_some, hkind]
          exact hsome h.tick
    · rw [hcall]
      exact hnone ⟨h.tick.1.touch fun hd => (by cases hd), h.tick.2⟩
  refine Triple.bind hopen fun fd => ?_
  cases fd with
  | none => exact left_failed.conseq (fun g h => h.1.1) fun _ _ hq => hq
  | some fd =>
    have hclose : Triple (OpenedNext g₀ cur m name (some fd)) (sysClose fd)
        fun _ g => Opened g₀ cur m g := by
      intro g h
      exact ⟨h.1.1.look rfl rfl, (AList.lookup_erase_ne (h.2 fd rfl).1.symm).trans h.1.2⟩
    exact Triple.bind hclose fun _ => chownLeaf_left

/-- A descent, what is done in the directory it ends in, and the close of that. -/
theorem walk_left {R : Loc} {rel : CStr} (o : Owner) {act : Nat → CStr → StateM Guest Int}
    (hact : ∀ parent name m, Triple (Opened g₀ parent m) (act parent name)
      (Left g₀ (move dots m name) uid gid)) :
    Triple (Opened g₀ rootfd R)
      (do
        let d ← descendComponents rootfd rel o
        match d with
        | none => pure (-1)
        | some (parent, leaf) => do
            let r ← act parent leaf
            releaseParent parent rootfd
            pure r) (Left g₀ (Lib.Descent.resolve dots R (comps rel)) uid gid) := by
  refine Triple.bind (descendLoop_open o) fun d => ?_
  cases d with
  | none => exact left_failed.conseq (fun g h => h.1) fun _ _ hq => hq
  | some d =>
    obtain ⟨parent, leaf⟩ := d
    intro g hg
    obtain ⟨m, hopen, hmove⟩ := hg.2 parent leaf rfl
    have hrelease (r : Int) : Triple (Left g₀ (move dots m leaf) uid gid r)
        (do
          releaseParent parent rootfd
          pure r) (Left g₀ (move dots m leaf) uid gid) := by
      refine Triple.bind (Q := fun _ g => Left g₀ (move dots m leaf) uid gid r g) ?_
        fun _ => Triple.pure fun g h => h
      refine Triple.ite (fun _ g h => ?_) fun _ => Triple.pure fun g h => h
      exact ⟨fun hr => (h.spares hr).look rfl rfl, fun hr hids => (h.changes hr hids).look rfl rfl⟩
    rw [← hmove]
    exact Triple.bind (hact parent leaf m) hrelease g ⟨hg.1, hopen⟩

/-- A creator changes what was there before only at the end of its path, and there only
the owner. -/
theorem creator_left (c : Creator) {R : Loc} (hroot : g₀.fds.lookup rootfd = some (.under R))
    (rel : CStr) (uid gid : UInt32) :
    Left g₀ (Lib.Descent.resolve dots R (comps rel)) uid gid (c.run rootfd rel uid gid g₀).1
      (c.run rootfd rel uid gid g₀).2 := by
  have hopened : Opened g₀ rootfd R g₀ := ⟨Spares.refl g₀, hroot⟩
  cases c with
  | mkdirOwn mode =>
    exact walk_left _ (fun _ _ _ => mkdirLeaf_left { uid := uid, gid := gid } mode) g₀ hopened
  | mkdirParents mode =>
    exact walk_left _ (fun _ _ _ => mkdirLeaf_left { uid := uid, gid := gid } mode) g₀ hopened
  | touch =>
    unfold Creator.run
    dsimp only
    rw [ioTouchAt_eq]
    exact walk_left _ (fun _ _ _ => touchLeaf_left) g₀ hopened

end

end Cage.Util.At
