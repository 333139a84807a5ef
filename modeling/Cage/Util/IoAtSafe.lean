import Cage.Lib.Hoare
import Cage.Util.DiskCalls
import Cage.Util.IoAt

/-!
The creators of `src/util/io_at.c` stay below the directory they start from,
whatever the tree holds and whichever of their system calls fail.
-/

namespace Cage.Util.At

open Cage.Lib.Hoare

def IsDir (g : Guest) (l : Loc) : Prop := (g.objs.lookup l).map Obj.kind = some .dir

/-- A place strictly below the root, reached through directories. -/
def Inside (g : Guest) (place : Place) : Prop :=
  ∃ l, place = .under l ∧ l ≠ [] ∧ ∀ m, m <+: l → m ≠ l → IsDir g m

/-- What a walk to `cs` may have done to the tree. -/
structure Confined (g₀ g : Guest) (cs : Loc) : Prop where
  same : ∀ l o, l = [] ∨ l ≠ cs → g₀.objs.lookup l = some o → g.objs.lookup l = some o
  leaf : ∀ o, g₀.objs.lookup cs = some o →
    ∃ uid gid, g.objs.lookup cs = some { o with uid := uid, gid := gid }
  new : ∀ l, g.objs.lookup l ≠ none → g₀.objs.lookup l ≠ none ∨ l ≠ [] ∧ l <+: cs
  touched : ∃ ts, g.touched = g₀.touched ++ ts ∧ ∀ t ∈ ts, Inside g t.place

theorem Confined.refl (g : Guest) (cs : Loc) : Confined g g cs where
  same _ _ _ h := h
  leaf o h := ⟨o.uid, o.gid, h⟩
  new _ h := Or.inl h
  touched := ⟨[], (List.append_nil _).symm, fun _ ht => absurd ht List.not_mem_nil⟩

theorem Inside.mono {g g' : Guest} {place : Place} (h : Inside g place)
    (hdir : ∀ l, IsDir g l → IsDir g' l) : Inside g' place := by
  obtain ⟨l, hl, hne, hpre⟩ := h
  exact ⟨l, hl, hne, fun m hm hml => hdir m (hpre m hm hml)⟩

/-- A step that leaves the objects. -/
theorem Confined.look {g₀ g g' : Guest} {cs : Loc} (h : Confined g₀ g cs)
    (hobjs : g'.objs = g.objs) (htouched : g'.touched = g.touched) : Confined g₀ g' cs := by
  refine ⟨by rw [hobjs]; exact h.same, by rw [hobjs]; exact h.leaf, by rw [hobjs]; exact h.new, ?_⟩
  obtain ⟨ts, hts, hin⟩ := h.touched
  refine ⟨ts, htouched.trans hts, fun t ht => (hin t ht).mono fun l hl => ?_⟩
  unfold IsDir
  rw [hobjs]
  exact hl

theorem Confined.touch {g₀ g : Guest} {cs : Loc} (h : Confined g₀ g cs) {place : Place}
    (hin : Inside g place) (deed : Deed) : Confined g₀ (g.touch deed place) cs := by
  refine ⟨h.same, h.leaf, h.new, ?_⟩
  obtain ⟨ts, hts, hall⟩ := h.touched
  refine ⟨ts ++ [{ deed := deed, place := place }], ?_, fun t ht => ?_⟩
  · unfold Guest.touch
    dsimp only
    rw [hts, List.append_assoc]
  · rcases List.mem_append.mp ht with ht | ht
    · exact hall t ht
    · rw [List.mem_singleton.mp ht]
      exact hin

theorem put_self (g : Guest) (l : Loc) (o : Obj) : (g.put l o).objs.lookup l = some o :=
  AList.lookup_insert _

theorem put_of_ne (g : Guest) {l m : Loc} (o : Obj) (h : m ≠ l) :
    (g.put l o).objs.lookup m = g.objs.lookup m :=
  AList.lookup_insert_ne h

/-- A new object is a directory only if it takes the place of a directory. -/
theorem IsDir.put {g : Guest} {l m : Loc} {o : Obj} (h : IsDir g m)
    (hl : IsDir g l → o.kind = .dir) : IsDir (g.put l o) m := by
  by_cases hml : m = l
  · subst hml
    unfold IsDir
    rw [put_self, Option.map_some, hl h]
  · unfold IsDir
    rw [put_of_ne g o hml]
    exact h

/-- An object is made, or the leaf or an object made before changes its owner. -/
theorem Confined.put {g₀ g : Guest} {cs l : Loc} {o : Obj} (h : Confined g₀ g cs)
    (hne : l ≠ []) (hpre : l <+: cs)
    (hold : ∀ o₀, g₀.objs.lookup l = some o₀ →
      l = cs ∧ ∃ uid gid, o = { o₀ with uid := uid, gid := gid })
    (hdir : IsDir g l → o.kind = .dir) : Confined g₀ (g.put l o) cs where
  same m o₀ hm hm₀ := by
    by_cases hml : m = l
    · subst hml
      rcases hm with hnil | hcs
      · exact absurd hnil hne
      · exact absurd (hold o₀ hm₀).1 hcs
    · rw [put_of_ne g o hml]
      exact h.same m o₀ hm hm₀
  leaf o₀ ho₀ := by
    by_cases hcs : cs = l
    · subst hcs
      obtain ⟨-, uid, gid, rfl⟩ := hold o₀ ho₀
      exact ⟨uid, gid, put_self g cs _⟩
    · rw [put_of_ne g o hcs]
      exact h.leaf o₀ ho₀
  new m hm := by
    by_cases hml : m = l
    · subst hml
      exact Or.inr ⟨hne, hpre⟩
    · rw [put_of_ne g o hml] at hm
      exact h.new m hm
  touched := by
    obtain ⟨ts, hts, hin⟩ := h.touched
    exact ⟨ts, hts, fun t ht => (hin t ht).mono fun m hm => hm.put hdir⟩

theorem tick_eq (g : Guest) :
    (tick g).2.objs = g.objs ∧ (tick g).2.fds = g.fds ∧ (tick g).2.touched = g.touched := by
  unfold tick
  split
  · exact ⟨rfl, rfl, rfl⟩
  · exact ⟨rfl, rfl, rfl⟩

theorem freshFd_notMem (g : Guest) : g.freshFd ∉ g.fds.keys := by
  unfold Guest.freshFd
  cases h : (List.range (g.fds.keys.length + 1)).find? fun fd => fd ∉ g.fds.keys with
  | some fd => simpa using List.find?_some h
  | none =>
    have hsub : List.range (g.fds.keys.length + 1) ⊆ g.fds.keys := by
      intro fd hfd
      simpa using List.find?_eq_none.mp h fd hfd
    have hle := (List.subperm_of_subset List.nodup_range hsub).length_le
    rw [List.length_range] at hle
    omega

/-- The directory `m` is open as `fd`, and `name` names an entry in it. -/
structure Entry (g : Guest) (fd : Nat) (m : Loc) (name : CStr) : Prop where
  opened : g.fds.lookup fd = some (.under m)
  dirs : ∀ l, l <+: m → IsDir g l
  notDot : name ≠ [dot]
  notDotdot : name ≠ [dot, dot]

theorem Entry.resolve {g : Guest} {fd : Nat} {m : Loc} {name : CStr} (h : Entry g fd m name) :
    At.resolve g fd name true = some (.under (m ++ [name])) := by
  have hdir : (g.objs.lookup m).map Obj.kind = some .dir := h.dirs m (List.prefix_refl m)
  unfold At.resolve
  rw [h.opened]
  dsimp only
  rw [if_neg h.notDot, if_neg h.notDotdot, hdir]
  dsimp only
  split <;> rfl

/-- A call on the entry fails, or does what it does at the entry's place. -/
theorem Entry.call {g : Guest} {fd : Nat} {m : Loc} {name : CStr} (h : Entry g fd m name)
    {A : Type} (failed : A) (f : Place → Guest → A × Guest) :
    At.call failed fd name true f g = (failed, (tick g).2) ∨
      At.call failed fd name true f g = f (.under (m ++ [name])) (tick g).2 := by
  obtain ⟨hobjs, hfds, -⟩ := tick_eq g
  have htick : Entry (tick g).2 fd m name := by
    refine ⟨by rw [hfds]; exact h.opened, fun l hl => ?_, h.notDot, h.notDotdot⟩
    unfold IsDir
    rw [hobjs]
    exact h.dirs l hl
  have hresolve := htick.resolve
  unfold At.call
  split
  · exact Or.inl rfl
  · rw [hresolve]
    exact Or.inr rfl

theorem Entry.inside {g : Guest} {fd : Nat} {m : Loc} {name : CStr} (h : Entry g fd m name) :
    Inside g (.under (m ++ [name])) := by
  refine ⟨m ++ [name], rfl, List.concat_ne_nil name m, fun l hl hne => h.dirs l ?_⟩
  rcases List.prefix_concat_iff.mp hl with heq | hpre
  · exact absurd heq hne
  · exact hpre

/-- What is there is still there. -/
theorem Confined.exists {g₀ g : Guest} {cs l : Loc} (h : Confined g₀ g cs)
    (hl : g.objs.lookup l = none) : g₀.objs.lookup l = none := by
  cases h₀ : g₀.objs.lookup l with
  | none => rfl
  | some o =>
    by_cases hcs : l = cs
    · subst hcs
      obtain ⟨uid, gid, hleaf⟩ := h.leaf o h₀
      rw [hl] at hleaf
      cases hleaf
    · rw [h.same l o (Or.inr hcs) h₀] at hl
      cases hl

/-- The process has come down to `m`, which it holds open as `cur`; the other
descriptors are as before. -/
structure Walk (g₀ g : Guest) (cs : Loc) (rootfd cur : Nat) (m : Loc) : Prop where
  confined : Confined g₀ g cs
  opened : g.fds.lookup cur = some (.under m)
  dirs : ∀ l, l <+: m → IsDir g l
  fds : ∀ fd, fd ≠ cur → g.fds.lookup fd = g₀.fds.lookup fd
  own : cur = rootfd ∧ m = [] ∨ cur ≠ rootfd ∧ g₀.fds.lookup cur = none

/-- The directory that an intermediate component becomes when it is missing. -/
def madeDir (o : Owner) : Obj where
  content := .dir
  uid := chowned o.uid 0
  gid := chowned o.gid 0

/-- What is at `l` when nothing but the missing directories down to `m` is made. -/
def along (g₀ : Guest) (m : Loc) (o : Owner) (l : Loc) : Option Obj :=
  if l <+: m ∧ g₀.objs.lookup l = none then some (madeDir o) else g₀.objs.lookup l

def Along (g₀ g : Guest) (m : Loc) (o : Owner) : Prop := ∀ l, g.objs.lookup l = along g₀ m o l

theorem notPrefix_concat (m : Loc) (name : CStr) : ¬m ++ [name] <+: m := by
  intro h
  have hlen := h.length_le
  rw [List.length_append, List.length_singleton] at hlen
  omega

theorem Along.next {g₀ g : Guest} {m : Loc} {o : Owner} (h : Along g₀ g m o) (name : CStr) :
    g.objs.lookup (m ++ [name]) = g₀.objs.lookup (m ++ [name]) := by
  rw [h, along, if_neg fun hpre => notPrefix_concat m name hpre.1]

theorem Along.look {g₀ g g' : Guest} {m : Loc} {o : Owner} (h : Along g₀ g m o)
    (hobjs : g'.objs = g.objs) : Along g₀ g' m o := by
  unfold Along
  rw [hobjs]
  exact h

/-- As `Along`, with anything at `l`. -/
def AlongBut (g₀ g : Guest) (m : Loc) (o : Owner) (l : Loc) : Prop :=
  ∀ x, x ≠ l → g.objs.lookup x = along g₀ m o x

/-- One component further down. -/
theorem Along.concat {g₀ g' : Guest} {m : Loc} {name : CStr} {o : Owner}
    (hne : AlongBut g₀ g' m o (m ++ [name]))
    (hold : ∀ o₀, g₀.objs.lookup (m ++ [name]) = some o₀ → g'.objs.lookup (m ++ [name]) = some o₀)
    (hnew : g₀.objs.lookup (m ++ [name]) = none →
      g'.objs.lookup (m ++ [name]) = some (madeDir o)) : Along g₀ g' (m ++ [name]) o := by
  intro l
  by_cases hl : l = m ++ [name]
  · subst hl
    unfold along
    cases h₀ : g₀.objs.lookup (m ++ [name]) with
    | none => rw [hnew h₀, if_pos ⟨List.prefix_refl _, rfl⟩]
    | some o₀ =>
      rw [hold o₀ h₀, if_neg]
      rintro ⟨-, hnone⟩
      cases hnone
  · have hiff : l <+: m ++ [name] ↔ l <+: m := by
      rw [List.prefix_concat_iff]
      exact or_iff_right hl
    rw [hne l hl]
    unfold along
    simp only [hiff]

section

variable {g₀ : Guest} {cs : Loc} {rootfd cur : Nat} {m : Loc}

theorem Walk.look {g g' : Guest} (h : Walk g₀ g cs rootfd cur m) (hobjs : g'.objs = g.objs)
    (hfds : ∀ fd, g'.fds.lookup fd = g.fds.lookup fd) (htouched : g'.touched = g.touched) :
    Walk g₀ g' cs rootfd cur m where
  confined := h.confined.look hobjs htouched
  opened := by rw [hfds, h.opened]
  dirs l hl := by
    unfold IsDir
    rw [hobjs]
    exact h.dirs l hl
  fds fd hfd := by rw [hfds, h.fds fd hfd]
  own := h.own

theorem Walk.tick {g : Guest} (h : Walk g₀ g cs rootfd cur m) :
    Walk g₀ (At.tick g).2 cs rootfd cur m := by
  obtain ⟨hobjs, hfds, htouched⟩ := tick_eq g
  exact h.look hobjs (fun fd => by rw [hfds]) htouched

theorem Walk.touch {g : Guest} (h : Walk g₀ g cs rootfd cur m) {place : Place}
    (hin : Inside g place) (deed : Deed) : Walk g₀ (g.touch deed place) cs rootfd cur m :=
  ⟨h.confined.touch hin deed, h.opened, h.dirs, h.fds, h.own⟩

theorem Walk.put {g : Guest} (h : Walk g₀ g cs rootfd cur m) {l : Loc} {o : Obj}
    (hne : l ≠ []) (hpre : l <+: cs)
    (hold : ∀ o₀, g₀.objs.lookup l = some o₀ →
      l = cs ∧ ∃ uid gid, o = { o₀ with uid := uid, gid := gid })
    (hdir : IsDir g l → o.kind = .dir) : Walk g₀ (g.put l o) cs rootfd cur m :=
  ⟨h.confined.put hne hpre hold hdir, h.opened, fun x hx => (h.dirs x hx).put hdir, h.fds, h.own⟩

variable {name : CStr} (hpre : m ++ [name] <+: cs)
  (hvalid : ∀ c ∈ cs, c ≠ [dot] ∧ c ≠ [dot, dot])

include hpre hvalid

theorem Walk.entry {g : Guest} (h : Walk g₀ g cs rootfd cur m) : Entry g cur m name := by
  have hname := hvalid name (hpre.subset (by simp))
  exact ⟨h.opened, h.dirs, hname.1, hname.2⟩

theorem sysFstatat_spec (o : Owner) :
    Triple (fun g => Walk g₀ g cs rootfd cur m ∧ Along g₀ g m o) (sysFstatat cur name)
      fun st g => (Walk g₀ g cs rootfd cur m ∧ Along g₀ g m o) ∧
        (st = some .dir → IsDir g (m ++ [name])) := by
  intro g ⟨h, halong⟩
  have htick := And.intro h.tick (halong.look (tick_eq g).1)
  rcases (h.entry hpre hvalid).call none _ with hcall | hcall
  · unfold sysFstatat
    rw [hcall]
    refine ⟨htick, fun hst => ?_⟩
    cases hst
  · unfold sysFstatat
    rw [hcall]
    exact ⟨htick, fun hst => hst⟩

theorem sysMkdirat_spec (o : Owner) (mode : Nat) :
    Triple (fun g => Walk g₀ g cs rootfd cur m ∧ Along g₀ g m o) (sysMkdirat cur name mode)
      fun r g => Walk g₀ g cs rootfd cur m ∧
        (r ≠ none → Along g₀ g m o) ∧
        (r = some .eexist → g₀.objs.lookup (m ++ [name]) ≠ none) ∧
        (r = none → g₀.objs.lookup (m ++ [name]) = none ∧ AlongBut g₀ g m o (m ++ [name]) ∧
          g.objs.lookup (m ++ [name]) = some { content := .dir, uid := 0, gid := 0 }) := by
  intro g ⟨h, halong⟩
  have htick := And.intro h.tick (halong.look (tick_eq g).1)
  rcases (h.entry hpre hvalid).call (some Errno.other) _ with hcall | hcall
  · unfold sysMkdirat
    rw [hcall]
    refine ⟨htick.1, fun _ => htick.2, fun hr => ?_, fun hr => ?_⟩
    · cases hr
    · cases hr
  · unfold sysMkdirat
    rw [hcall]
    dsimp only
    cases hl : (At.tick g).2.objs.lookup (m ++ [name]) with
    | some obj =>
      refine ⟨htick.1, fun _ => htick.2, fun _ => ?_, fun hr => ?_⟩
      · rw [← htick.2.next name, hl]
        exact Option.some_ne_none obj
      · cases hr
    | none =>
      have hnone := htick.1.confined.exists hl
      have hput : Walk g₀ ((At.tick g).2.put (m ++ [name]) { content := .dir, uid := 0, gid := 0 })
          cs rootfd cur m := by
        refine htick.1.put (List.concat_ne_nil name m) hpre (fun o₀ ho₀ => ?_) fun _ => rfl
        rw [hnone] at ho₀
        cases ho₀
      refine ⟨hput.touch (hput.entry hpre hvalid).inside .created, fun hr => absurd rfl hr,
        fun hr => ?_, fun _ => ⟨hnone, fun l hne => ?_, put_self _ _ _⟩⟩
      · cases hr
      · exact (put_of_ne _ _ hne).trans (htick.2 l)

/-- The owner of an object made by this walk, or of the leaf. -/
theorem sysFchownat_spec (hmine : g₀.objs.lookup (m ++ [name]) = none ∨ m ++ [name] = cs)
    (o : Owner) (obj : Obj) (uid gid : UInt32) :
    Triple (fun g => Walk g₀ g cs rootfd cur m ∧ AlongBut g₀ g m o (m ++ [name]) ∧
        g.objs.lookup (m ++ [name]) = some obj) (sysFchownat cur name uid gid)
      fun r g => Walk g₀ g cs rootfd cur m ∧ AlongBut g₀ g m o (m ++ [name]) ∧
        (r = 0 → g.objs.lookup (m ++ [name]) =
          some { obj with uid := chowned uid obj.uid, gid := chowned gid obj.gid }) := by
  intro g ⟨h, hbut, hobj⟩
  have hobjs := (tick_eq g).1
  have hbut' : AlongBut g₀ (At.tick g).2 m o (m ++ [name]) := by
    unfold AlongBut
    rw [hobjs]
    exact hbut
  rcases (h.entry hpre hvalid).call (-1 : Int) _ with hcall | hcall
  · unfold sysFchownat
    rw [hcall]
    refine ⟨h.tick, hbut', fun hr => ?_⟩
    cases hr
  · unfold sysFchownat
    rw [hcall]
    dsimp only
    rw [hobjs, hobj]
    dsimp only
    have hput : Walk g₀ ((At.tick g).2.put (m ++ [name])
        { obj with uid := chowned uid obj.uid, gid := chowned gid obj.gid }) cs rootfd cur m := by
      refine h.tick.put (List.concat_ne_nil name m) hpre (fun o₀ ho₀ => ?_) fun hdir => ?_
      · rcases hmine with hnone | hcs
        · rw [hnone] at ho₀
          cases ho₀
        · refine ⟨hcs, ?_⟩
          rw [hcs] at ho₀ hobj
          obtain ⟨uid₀, gid₀, hleaf⟩ := h.confined.leaf o₀ ho₀
          rw [hobj] at hleaf
          cases hleaf
          exact ⟨_, _, rfl⟩
      · unfold IsDir at hdir
        rw [hobjs, hobj] at hdir
        exact Option.some.inj hdir
    refine ⟨hput.touch (hput.entry hpre hvalid).inside .chowned, fun x hx => ?_,
      fun _ => put_self _ _ _⟩
    exact (put_of_ne _ _ hx).trans (hbut' x hx)

theorem createDirComponent_spec (o : Owner) :
    Triple (fun g => Walk g₀ g cs rootfd cur m ∧ Along g₀ g m o) (createDirComponent cur name o)
      fun r g => Walk g₀ g cs rootfd cur m ∧ (r = 0 → Along g₀ g (m ++ [name]) o) := by
  refine Triple.bind (sysMkdirat_spec hpre hvalid o 0o755) fun r => ?_
  refine Triple.ite (fun hr => ?_) fun hr => ?_
  · exact Triple.pure fun g hg => ⟨hg.1, fun h => absurd h (by decide)⟩
  · obtain rfl : r = none := of_not_not hr
    have hpost : ∀ g, (Walk g₀ g cs rootfd cur m ∧ AlongBut g₀ g m o (m ++ [name]) ∧
        g₀.objs.lookup (m ++ [name]) = none ∧ g.objs.lookup (m ++ [name]) = some (madeDir o)) →
        Walk g₀ g cs rootfd cur m ∧ ((0 : Int) = 0 → Along g₀ g (m ++ [name]) o) := by
      intro g ⟨hwalk, hbut, hnone, hmade⟩
      refine ⟨hwalk, fun _ => Along.concat hbut (fun o₀ ho₀ => ?_) fun _ => hmade⟩
      rw [hnone] at ho₀
      cases ho₀
    have hchown (hnone : g₀.objs.lookup (m ++ [name]) = none) :
        Triple (fun g => Walk g₀ g cs rootfd cur m ∧ AlongBut g₀ g m o (m ++ [name]) ∧
            g.objs.lookup (m ++ [name]) = some { content := .dir, uid := 0, gid := 0 })
          (do
            let c ← sysFchownat cur name o.uid o.gid
            if c ≠ 0 then pure (-1) else pure 0)
          fun r g => Walk g₀ g cs rootfd cur m ∧ (r = 0 → Along g₀ g (m ++ [name]) o) := by
      refine Triple.bind (sysFchownat_spec hpre hvalid (Or.inl hnone) o _ o.uid o.gid) fun c => ?_
      refine Triple.ite (fun _ => ?_) fun hc => ?_
      · exact Triple.pure fun g hg => ⟨hg.1, fun h => absurd h (by decide)⟩
      · exact Triple.pure fun g hg =>
          hpost g ⟨hg.1, hg.2.1, hnone, hg.2.2 (of_not_not hc)⟩
    refine Triple.ite (fun _ => ?_) fun howner => ?_
    · intro g ⟨hwalk, _, _, hmade⟩
      obtain ⟨hnone, hbut, hdir⟩ := hmade rfl
      exact hchown hnone g ⟨hwalk, hbut, hdir⟩
    · refine Triple.pure fun g ⟨hwalk, _, _, hmade⟩ => ?_
      obtain ⟨hnone, hbut, hdir⟩ := hmade rfl
      refine hpost g ⟨hwalk, hbut, hnone, hdir.trans ?_⟩
      have huid : o.uid = 0 := by
        by_contra hne
        exact howner (Or.inl hne)
      have hgid : o.gid = 0 := by
        by_contra hne
        exact howner (Or.inr hne)
      unfold madeDir
      rw [huid, hgid]
      rfl

end

/-- The next directory is open as `fd`, and the one above it still is as `cur`. -/
structure Descended (g₀ g : Guest) (cs : Loc) (rootfd cur fd : Nat) (l : Loc) : Prop where
  confined : Confined g₀ g cs
  opened : g.fds.lookup fd = some (.under l)
  dirs : ∀ x, x <+: l → IsDir g x
  fds : ∀ f, f ≠ cur → f ≠ fd → g.fds.lookup f = g₀.fds.lookup f
  fresh : g₀.fds.lookup fd = none
  ne : fd ≠ cur
  own : cur = rootfd ∧ g.fds.lookup cur = some (.under []) ∨
    cur ≠ rootfd ∧ g₀.fds.lookup cur = none

theorem releaseParent_descended {g₀ : Guest} {cs l : Loc} {rootfd cur fd : Nat}
    (hroot : g₀.fds.lookup rootfd = some (.under [])) {P : Guest → Prop}
    (hP : ∀ g g', g'.objs = g.objs → P g → P g') :
    Triple (fun g => Descended g₀ g cs rootfd cur fd l ∧ P g) (releaseParent cur rootfd)
      fun _ g => Walk g₀ g cs rootfd fd l ∧ P g := by
  have hne {g : Guest} (h : Descended g₀ g cs rootfd cur fd l) : fd ≠ rootfd := by
    rintro rfl
    rw [h.fresh] at hroot
    cases hroot
  refine Triple.ite (fun hcur => ?_) fun hcur => ?_
  · intro g ⟨h, hp⟩
    refine ⟨⟨h.confined.look rfl rfl, ?_, h.dirs, fun f hf => ?_, Or.inr ⟨hne h, h.fresh⟩⟩,
      hP g _ rfl hp⟩
    · exact (AList.lookup_erase_ne h.ne).trans h.opened
    · by_cases hfcur : f = cur
      · subst hfcur
        rcases h.own with ⟨heq, -⟩ | ⟨-, hnone⟩
        · exact absurd heq hcur
        · rw [hnone]
          exact AList.lookup_erase _ _
      · exact (AList.lookup_erase_ne hfcur).trans (h.fds f hfcur hf)
  · refine Triple.pure fun g ⟨h, hp⟩ => ?_
    refine ⟨⟨h.confined, h.opened, h.dirs, fun f hf => ?_, Or.inr ⟨hne h, h.fresh⟩⟩, hp⟩
    by_cases hfcur : f = cur
    · subst hfcur
      rcases h.own with ⟨rfl, hopen⟩ | ⟨hne', -⟩
      · rw [hopen, hroot]
      · exact absurd hne' hcur
    · exact h.fds f hfcur hf

/-- The end of a walk: nothing is left open. -/
def Done (g₀ g : Guest) (cs : Loc) : Prop :=
  Confined g₀ g cs ∧ ∀ fd, g.fds.lookup fd = g₀.fds.lookup fd

/-- Whatever is known of the objects is known after the parent is closed. -/
theorem releaseParent_done {g₀ : Guest} {cs m : Loc} {rootfd cur : Nat}
    (hroot : g₀.fds.lookup rootfd = some (.under [])) {P : Guest → Prop}
    (hP : ∀ g g', g'.objs = g.objs → P g → P g') :
    Triple (fun g => Walk g₀ g cs rootfd cur m ∧ P g) (releaseParent cur rootfd)
      fun _ g => Done g₀ g cs ∧ P g := by
  refine Triple.ite (fun hcur => ?_) fun hcur => ?_
  · intro g ⟨h, hp⟩
    refine ⟨⟨h.confined.look rfl rfl, fun fd => ?_⟩, hP g _ rfl hp⟩
    by_cases hfd : fd = cur
    · subst hfd
      rcases h.own with ⟨heq, -⟩ | ⟨-, hnone⟩
      · exact absurd heq hcur
      · rw [hnone]
        exact AList.lookup_erase _ _
    · exact (AList.lookup_erase_ne hfd).trans (h.fds fd hfd)
  · refine Triple.pure fun g ⟨h, hp⟩ => ⟨⟨h.confined, fun fd => ?_⟩, hp⟩
    by_cases hfd : fd = cur
    · subst hfd
      rcases h.own with ⟨rfl, rfl⟩ | ⟨hne, -⟩
      · rw [h.opened, hroot]
      · exact absurd hne hcur
    · exact h.fds fd hfd

section

variable {g₀ : Guest} {cs : Loc} {rootfd cur : Nat} {m : Loc}

theorem Walk.fresh {g : Guest} (h : Walk g₀ g cs rootfd cur m) :
    g.freshFd ≠ cur ∧ g₀.fds.lookup g.freshFd = none := by
  have hnone : g.fds.lookup g.freshFd = none :=
    AList.lookup_eq_none.mpr fun hmem => freshFd_notMem g (AList.mem_keys.mp hmem)
  have hne : g.freshFd ≠ cur := by
    intro heq
    rw [heq, h.opened] at hnone
    cases hnone
  exact ⟨hne, (h.fds _ hne).symm.trans hnone⟩

theorem Walk.openDir {g : Guest} (h : Walk g₀ g cs rootfd cur m) {name : CStr}
    (hin : Inside g (.under (m ++ [name]))) (hdir : IsDir g (m ++ [name])) :
    Descended g₀ (g.openFd (.under (m ++ [name]))).2 cs rootfd cur g.freshFd (m ++ [name]) where
  confined := (h.confined.touch hin .opened).look rfl rfl
  opened := AList.lookup_insert _
  dirs x hx := by
    rcases List.prefix_concat_iff.mp hx with rfl | hx
    · exact hdir
    · exact h.dirs x hx
  fds f hcur hfd := (AList.lookup_insert_ne hfd).trans (h.fds f hcur)
  fresh := h.fresh.2
  ne := h.fresh.1
  own := by
    rcases h.own with ⟨hcur, rfl⟩ | hcur
    · exact Or.inl ⟨hcur, (AList.lookup_insert_ne h.fresh.1.symm).trans h.opened⟩
    · exact Or.inr hcur

variable {name : CStr} (hpre : m ++ [name] <+: cs)
  (hvalid : ∀ c ∈ cs, c ≠ [dot] ∧ c ≠ [dot, dot])

include hpre hvalid

theorem openComponentNofollow_spec (o : Owner) :
    Triple (fun g => Walk g₀ g cs rootfd cur m ∧ Along g₀ g (m ++ [name]) o)
      (openComponentNofollow cur name)
      fun r g => (r = none → Walk g₀ g cs rootfd cur m) ∧
        ∀ fd, r = some fd → Descended g₀ g cs rootfd cur fd (m ++ [name]) ∧
          Along g₀ g (m ++ [name]) o := by
  intro g ⟨h, halong⟩
  have hfail : (none : Option Nat) = none → Walk g₀ (At.tick g).2 cs rootfd cur m :=
    fun _ => h.tick
  have halong' := halong.look (tick_eq g).1
  rcases (h.entry hpre hvalid).call (none : Option Nat) _ with hcall | hcall
  · unfold openComponentNofollow sysOpenat
    rw [hcall]
    refine ⟨hfail, fun fd hfd => ?_⟩
    cases hfd
  · unfold openComponentNofollow sysOpenat
    rw [hcall]
    dsimp only
    cases hkind : ((At.tick g).2.objs.lookup (m ++ [name])).map Obj.kind with
    | none =>
      refine ⟨hfail, fun fd hfd => ?_⟩
      cases hfd
    | some kind =>
      cases kind with
      | file =>
        refine ⟨hfail, fun fd hfd => ?_⟩
        cases hfd
      | link =>
        refine ⟨hfail, fun fd hfd => ?_⟩
        cases hfd
      | dir =>
        refine ⟨fun hr => ?_, fun fd hfd => ?_⟩
        · cases hr
        · cases hfd
          exact ⟨h.tick.openDir (h.tick.entry hpre hvalid).inside hkind, halong'.look rfl⟩

theorem ensureDirComponent_spec (o : Owner) :
    Triple (fun g => Walk g₀ g cs rootfd cur m ∧ Along g₀ g m o) (ensureDirComponent cur name o)
      fun r g => (r = none → Walk g₀ g cs rootfd cur m) ∧
        ∀ fd, r = some fd → Descended g₀ g cs rootfd cur fd (m ++ [name]) ∧
          Along g₀ g (m ++ [name]) o := by
  have hnone : Triple (fun g => Walk g₀ g cs rootfd cur m) (pure none : StateM Guest (Option Nat))
      fun r g => (r = none → Walk g₀ g cs rootfd cur m) ∧
        ∀ fd, r = some fd → Descended g₀ g cs rootfd cur fd (m ++ [name]) ∧
          Along g₀ g (m ++ [name]) o := by
    refine Triple.pure fun g h => ⟨fun _ => h, fun fd hfd => ?_⟩
    cases hfd
  refine Triple.bind (sysFstatat_spec hpre hvalid o) fun st => ?_
  cases st with
  | some kind =>
    refine Triple.ite (fun _ => ?_) fun hkind => ?_
    · exact hnone.conseq (fun _ hg => hg.1.1) fun _ _ hq => hq
    · obtain rfl : kind = .dir := of_not_not hkind
      refine (openComponentNofollow_spec hpre hvalid o).conseq
        (fun g ⟨⟨h, halong⟩, hdir⟩ => ⟨h, ?_⟩) fun _ _ hq => hq
      have hisDir : IsDir g (m ++ [name]) := hdir rfl
      refine Along.concat (fun x _ => halong x) (fun o₀ ho₀ => (halong.next name).trans ho₀)
        fun hmissing => ?_
      unfold IsDir at hisDir
      rw [halong.next name, hmissing] at hisDir
      cases hisDir
  | none =>
    refine Triple.bind ((createDirComponent_spec hpre hvalid o).conseq (fun _ hg => hg.1)
      fun _ _ hq => hq) fun r => ?_
    refine Triple.ite (fun _ => ?_) fun hr => ?_
    · exact hnone.conseq (fun _ hg => hg.1) fun _ _ hq => hq
    · exact (openComponentNofollow_spec hpre hvalid o).conseq
        (fun _ hg => ⟨hg.1, hg.2 (of_not_not hr)⟩) fun _ _ hq => hq

end

/-- The first component is what stands before the first slash. -/
theorem comps_takeWhile {p : CStr} (hne : p.takeWhile (· ≠ slash) ≠ []) :
    comps p = p.takeWhile (· ≠ slash) :: comps (p.dropWhile (· ≠ slash)) := by
  have hnone : slash ∉ p.takeWhile (· ≠ slash) := by
    intro hmem
    have h := List.all_eq_true.mp List.all_takeWhile slash hmem
    simp at h
  have hsplit := congrArg comps (List.takeWhile_append_dropWhile (p := (· ≠ slash)) (l := p))
  rw [← hsplit]
  unfold comps
  rw [compsFrom_append hnone, List.nil_append]
  cases hrest : p.dropWhile (· ≠ slash) with
  | nil =>
    unfold compsFrom
    rw [if_neg hne, if_pos rfl]
  | cons c rest =>
    have hc : c = slash := by
      have h := List.head?_dropWhile_not (· ≠ slash) p
      rw [hrest] at h
      simpa using h
    rw [hc, compsFrom_slash, if_neg hne, compsFrom_slash, if_pos rfl]

theorem nextComp_spec (p : CStr) :
    ((nextComp p).2.1 = 0 ∧ comps p = []) ∨ ((nextComp p).2.1 = -1 ∧ comps p ≠ []) ∨
      ((nextComp p).2.1 = 1 ∧ comps p = (nextComp p).2.2 :: comps (nextComp p).1 ∧
        (nextComp p).1.length < p.length) := by
  have hcomps := comps_dropWhile p
  have hle := (List.dropWhile_suffix (l := p) (· = slash)).length_le
  unfold nextComp
  dsimp only
  split
  · rename_i hnil
    rw [hnil] at hcomps
    exact Or.inl ⟨rfl, hcomps.symm⟩
  · rename_i hstart
    obtain ⟨c, s, hcs⟩ := List.exists_cons_of_ne_nil hstart
    have hc : c ≠ slash := by
      have h := List.head?_dropWhile_not (· = slash) p
      rw [hcs] at h
      simpa using h
    have hname : (p.dropWhile (· = slash)).takeWhile (· ≠ slash) ≠ [] := by
      rw [hcs, List.takeWhile_cons_of_pos (by simpa using hc)]
      exact List.cons_ne_nil _ _
    have hcons := comps_takeWhile hname
    rw [hcomps] at hcons
    right
    split
    · refine Or.inl ⟨rfl, ?_⟩
      rw [hcons]
      exact List.cons_ne_nil _ _
    · refine Or.inr ⟨rfl, hcons, ?_⟩
      have hlen := congrArg List.length (List.takeWhile_append_dropWhile
        (p := (· ≠ slash)) (l := p.dropWhile (· = slash)))
      rw [List.length_append] at hlen
      have hpos := List.length_pos_of_ne_nil hname
      dsimp only
      omega

section

variable {g₀ : Guest} {cs : Loc} {rootfd : Nat}
  (hroot : g₀.fds.lookup rootfd = some (.under []))
  (hvalid : ∀ c ∈ cs, c ≠ [dot] ∧ c ≠ [dot, dot])

include hroot hvalid

theorem descendLoop_spec (o : Owner) {n cur : Nat} {p : CStr} {m : Loc} (hn : p.length < n)
    (hcs : cs = m ++ comps p) :
    Triple (fun g => Walk g₀ g cs rootfd cur m ∧ Along g₀ g m o) (descendLoop rootfd o n cur p)
      fun r g => (r = none → Done g₀ g cs) ∧ ∀ parent leaf, r = some (parent, leaf) →
        ∃ m, cs = m ++ [leaf] ∧ Walk g₀ g cs rootfd parent m ∧ Along g₀ g m o := by
  induction n generalizing cur p m with
  | zero => exact absurd hn (Nat.not_lt_zero _)
  | succ n ih =>
    have hstop : Triple (fun g => Walk g₀ g cs rootfd cur m ∧ True)
        (do
          releaseParent cur rootfd
          pure none)
        fun r g => (r = none → Done g₀ g cs) ∧ ∀ parent leaf, r = some (parent, leaf) →
          ∃ m, cs = m ++ [leaf] ∧ Walk g₀ g cs rootfd parent m ∧ Along g₀ g m o := by
      refine Triple.bind (releaseParent_done hroot fun _ _ _ _ => trivial) fun _ => ?_
      refine Triple.pure fun g hg => ⟨fun _ => hg.1, fun parent leaf h => ?_⟩
      cases h
    rcases nextComp_spec p with ⟨hrc, -⟩ | ⟨hrc, -⟩ | ⟨hrc, hcomps, hlen⟩
    · refine Triple.ite (fun hpos => ?_) fun _ => hstop.conseq (fun g hg => ⟨hg.1, trivial⟩)
        fun _ _ hq => hq
      rw [hrc] at hpos
      exact absurd hpos (by decide)
    · refine Triple.ite (fun hpos => ?_) fun _ => hstop.conseq (fun g hg => ⟨hg.1, trivial⟩)
        fun _ _ hq => hq
      rw [hrc] at hpos
      exact absurd hpos (by decide)
    · rw [hcomps] at hcs
      refine Triple.ite (fun _ => ?_) fun hpos => absurd (by rw [hrc]; decide) hpos
      refine Triple.ite (fun hlast => ?_) fun _ => ?_
      · refine Triple.pure fun g ⟨hwalk, halong⟩ => ⟨fun h => ?_, fun parent leaf h => ?_⟩
        · cases h
        · cases h
          refine ⟨m, ?_, hwalk, halong⟩
          have hzero : (nextComp (nextComp p).1).2.1 = 0 := by simpa [noMoreComponents] using hlast
          rcases nextComp_spec (nextComp p).1 with ⟨-, hnil⟩ | ⟨hneg, -⟩ | ⟨hone, -⟩
          · rw [hcs, hnil]
          · rw [hneg] at hzero
            cases hzero
          · rw [hone] at hzero
            cases hzero
      · have hcs' : cs = (m ++ [(nextComp p).2.2]) ++ comps (nextComp p).1 := by
          rw [List.append_assoc, List.singleton_append]
          exact hcs
        have hpre : m ++ [(nextComp p).2.2] <+: cs := by
          rw [hcs']
          exact List.prefix_append _ _
        refine Triple.bind (ensureDirComponent_spec hpre hvalid o) fun fd => ?_
        cases fd with
        | none => exact hstop.conseq (fun g hg => ⟨hg.1 rfl, trivial⟩) fun _ _ hq => hq
        | some fd =>
          refine Triple.bind ((releaseParent_descended hroot fun g g' hobjs h =>
            Along.look h hobjs).conseq (fun g hg => hg.2 fd rfl) fun _ _ hq => hq) fun _ => ?_
          exact ih (by omega) hcs'

end

/-- The start of a walk. -/
theorem descendComponents_spec {g₀ : Guest} {rootfd : Nat} {rel : CStr}
    (hroot : g₀.fds.lookup rootfd = some (.under [])) (hdir : IsDir g₀ [])
    (hvalid : ∀ c ∈ comps rel, c ≠ [dot] ∧ c ≠ [dot, dot]) (o : Owner) :
    Triple (fun g => g = g₀) (descendComponents rootfd rel o)
      fun r g => (r = none → Done g₀ g (comps rel)) ∧ ∀ parent leaf, r = some (parent, leaf) →
        ∃ m, comps rel = m ++ [leaf] ∧ Walk g₀ g (comps rel) rootfd parent m ∧
          Along g₀ g m o := by
  refine Triple.conseq (descendLoop_spec hroot hvalid o (Nat.lt_succ_self rel.length)
    (List.nil_append (comps rel)).symm) (fun g hg => ?_) fun _ _ hq => hq
  subst hg
  refine ⟨⟨Confined.refl g _, hroot, fun l hl => ?_, fun _ _ => rfl, Or.inl ⟨rfl, rfl⟩⟩,
    fun l => ?_⟩
  · rw [List.prefix_nil.mp hl]
    exact hdir
  · unfold along
    rw [if_neg]
    rintro ⟨hl, hnone⟩
    rw [List.prefix_nil.mp hl] at hnone
    unfold IsDir at hdir
    rw [hnone] at hdir
    cases hdir

/-- The leaf is there: `old` of what was there before, with the owner 0:0 if
nothing was. -/
def LeafThere (g₀ g : Guest) (cs : Loc) : Prop :=
  ∃ obj, g.objs.lookup cs = some obj ∧
    (g₀.objs.lookup cs = none → obj.uid = 0 ∧ obj.gid = 0) ∧
    ∀ old, g₀.objs.lookup cs = some old → obj = old

/-- The leaf is there with the owner `o`, unless it was there before and `o` is
0:0. -/
def LeafOwned (g₀ g : Guest) (cs : Loc) (o : Owner) : Prop :=
  ∃ obj, g.objs.lookup cs = some obj ∧
    (g₀.objs.lookup cs = none → obj.uid = chowned o.uid 0 ∧ obj.gid = chowned o.gid 0) ∧
    ∀ old, g₀.objs.lookup cs = some old → o.uid ≠ 0 ∨ o.gid ≠ 0 →
      obj.uid = chowned o.uid old.uid ∧ obj.gid = chowned o.gid old.gid

theorem Along.leafThere {g₀ g : Guest} {cs m : Loc} {name : CStr} {o : Owner}
    (halong : Along g₀ g m o) (hcs : m ++ [name] = cs) {old : Obj}
    (hold : g₀.objs.lookup cs = some old) : LeafThere g₀ g cs := by
  refine ⟨old, ?_, fun hnone => ?_, fun old' hold' => ?_⟩
  · rw [← hcs] at hold ⊢
    exact (halong.next name).trans hold
  · rw [hold] at hnone
    cases hnone
  · rw [hold] at hold'
    exact Option.some.inj hold'

section

variable {g₀ : Guest} {cs : Loc} {rootfd cur : Nat} {m : Loc} {name : CStr}
  (hcs : m ++ [name] = cs) (hvalid : ∀ c ∈ cs, c ≠ [dot] ∧ c ≠ [dot, dot])

include hcs hvalid

theorem chownLeaf_spec (o : Owner) (uid gid : UInt32) :
    Triple (fun g => Walk g₀ g cs rootfd cur m ∧ AlongBut g₀ g m o cs ∧ LeafThere g₀ g cs)
      (chownLeaf cur name uid gid)
      fun r g => Walk g₀ g cs rootfd cur m ∧
        (r = 0 → AlongBut g₀ g m o cs ∧ LeafOwned g₀ g cs { uid := uid, gid := gid }) := by
  subst hcs
  refine Triple.ite (fun hroot => ?_) fun _ => ?_
  · refine Triple.pure fun g ⟨hwalk, hbut, obj, hobj, hnew, _⟩ => ⟨hwalk, fun _ =>
      ⟨hbut, obj, hobj, fun hnone => ?_, fun _ _ hne => ?_⟩⟩
    · obtain ⟨huid, hgid⟩ := hnew hnone
      rw [hroot.1, hroot.2]
      exact ⟨huid, hgid⟩
    · rcases hne with hne | hne
      · exact absurd hroot.1 hne
      · exact absurd hroot.2 hne
  · intro g ⟨hwalk, hbut, obj, hobj, hnew, hold⟩
    have hchown : Triple (fun g => Walk g₀ g (m ++ [name]) rootfd cur m ∧
          AlongBut g₀ g m o (m ++ [name]) ∧ g.objs.lookup (m ++ [name]) = some obj)
        (do
          let c ← sysFchownat cur name uid gid
          if c ≠ 0 then pure (-1) else pure 0)
        fun r g => Walk g₀ g (m ++ [name]) rootfd cur m ∧ (r = 0 → AlongBut g₀ g m o (m ++ [name]) ∧
          LeafOwned g₀ g (m ++ [name]) { uid := uid, gid := gid }) := by
      refine Triple.bind (sysFchownat_spec (List.prefix_refl _) hvalid (Or.inr rfl) o obj uid gid)
        fun c => ?_
      refine Triple.ite (fun _ => ?_) fun hc => ?_
      · exact Triple.pure fun g hg => ⟨hg.1, fun h => absurd h (by decide)⟩
      · refine Triple.pure fun g hg => ⟨hg.1, fun _ => ⟨hg.2.1, _, hg.2.2 (of_not_not hc),
          fun hnone => ?_, fun old holdObj _ => ?_⟩⟩
        · obtain ⟨huid, hgid⟩ := hnew hnone
          rw [huid, hgid]
          exact ⟨rfl, rfl⟩
        · rw [hold old holdObj]
          exact ⟨rfl, rfl⟩
    exact hchown g ⟨hwalk, hbut, hobj⟩

theorem mkdirLeaf_spec (o leafOwner : Owner) (mode : Nat) :
    Triple (fun g => Walk g₀ g cs rootfd cur m ∧ Along g₀ g m o)
      (mkdirLeaf cur name leafOwner mode)
      fun r g => Walk g₀ g cs rootfd cur m ∧
        (r = 0 → AlongBut g₀ g m o cs ∧ LeafOwned g₀ g cs leafOwner) := by
  have hpre : m ++ [name] <+: cs := hcs ▸ List.prefix_refl cs
  refine Triple.bind (sysMkdirat_spec hpre hvalid o mode) fun r => ?_
  refine Triple.ite (fun _ => ?_) fun hr => ?_
  · exact Triple.pure fun g hg => ⟨hg.1, fun h => absurd h (by decide)⟩
  · refine (chownLeaf_spec hcs hvalid o leafOwner.uid leafOwner.gid).conseq
      (fun g ⟨hwalk, hsame, heexist, hmade⟩ => ⟨hwalk, ?_⟩) fun _ _ hq => hq
    rw [hcs] at heexist hmade
    cases r with
    | none =>
      obtain ⟨hnone, hbut, hdir⟩ := hmade rfl
      refine ⟨hbut, _, hdir, fun _ => ⟨rfl, rfl⟩, fun old hold => ?_⟩
      rw [hnone] at hold
      cases hold
    | some e =>
      have he : e = .eexist := by
        by_contra hne
        exact hr ⟨Option.some_ne_none e, fun heq => hne (Option.some.inj heq)⟩
      subst he
      have halong := hsame (Option.some_ne_none _)
      obtain ⟨old, hold⟩ := Option.ne_none_iff_exists'.mp (heexist rfl)
      exact ⟨fun x _ => halong x, halong.leafThere hcs hold⟩

/-- The file is there, and only its own descriptor is open besides. -/
theorem openLeaf_spec (o : Owner) :
    Triple (fun g => Walk g₀ g cs rootfd cur m ∧ Along g₀ g m o)
      (sysOpenat cur name { nofollow := true, directory := false, creat := true })
      fun r g => (r = none → Walk g₀ g cs rootfd cur m) ∧ ∀ fd, r = some fd →
        Walk g₀ { g with fds := g.fds.erase fd } cs rootfd cur m ∧
          AlongBut g₀ g m o cs ∧ LeafThere g₀ g cs := by
  have hpre : m ++ [name] <+: cs := hcs ▸ List.prefix_refl cs
  intro g ⟨h, halong⟩
  have hfail : (none : Option Nat) = none → Walk g₀ (At.tick g).2 cs rootfd cur m :=
    fun _ => h.tick
  have halong' := halong.look (tick_eq g).1
  have hopened {g' : Guest} (h' : Walk g₀ g' cs rootfd cur m) :
      Walk g₀ { (g'.openFd (.under (m ++ [name]))).2 with
        fds := (g'.openFd (.under (m ++ [name]))).2.fds.erase g'.freshFd } cs rootfd cur m := by
    have hnone : g'.fds.lookup g'.freshFd = none :=
      (h'.fds _ h'.fresh.1).trans h'.fresh.2
    refine (h'.touch (h'.entry hpre hvalid).inside .opened).look rfl (fun fd => ?_) rfl
    by_cases hfd : fd = g'.freshFd
    · rw [hfd]
      exact (AList.lookup_erase _ _).trans hnone.symm
    · exact (AList.lookup_erase_ne hfd).trans (AList.lookup_insert_ne hfd)
  rcases (h.entry hpre hvalid).call (none : Option Nat) _ with hcall | hcall
  · unfold sysOpenat
    rw [hcall]
    refine ⟨hfail, fun fd hfd => ?_⟩
    cases hfd
  · unfold sysOpenat
    rw [hcall]
    dsimp only
    cases hobj : (At.tick g).2.objs.lookup (m ++ [name]) with
    | none =>
      refine ⟨fun hr => ?_, fun fd hfd => ?_⟩
      · cases hr
      · cases hfd
        have hnone := h.tick.confined.exists hobj
        have hput : Walk g₀ ((At.tick g).2.put (m ++ [name])
            { content := .file, uid := 0, gid := 0 }) cs rootfd cur m := by
          refine h.tick.put (List.concat_ne_nil name m) hpre (fun o₀ ho₀ => ?_) fun hdir => ?_
          · rw [hnone] at ho₀
            cases ho₀
          · unfold IsDir at hdir
            rw [hobj] at hdir
            cases hdir
        have htouch := hput.touch (hput.entry hpre hvalid).inside .created
        refine ⟨hopened htouch, fun x hx => ?_, { content := .file, uid := 0, gid := 0 }, ?_,
          fun _ => ⟨rfl, rfl⟩, fun old hold => ?_⟩
        · exact (put_of_ne _ _ (hcs ▸ hx)).trans (halong' x)
        · rw [← hcs]
          exact put_self _ _ _
        · rw [← hcs, hnone] at hold
          cases hold
    | some obj =>
      have hold : g₀.objs.lookup cs = some obj := by
        rw [← hcs, ← halong'.next name, hobj]
      have hthere := halong'.leafThere hcs hold
      rw [Option.map_some]
      cases hkind : obj.kind with
      | dir =>
        refine ⟨hfail, fun fd hfd => ?_⟩
        cases hfd
      | link =>
        refine ⟨hfail, fun fd hfd => ?_⟩
        cases hfd
      | file =>
        refine ⟨fun hr => ?_, fun fd hfd => ?_⟩
        · cases hr
        · cases hfd
          exact ⟨hopened h.tick, fun x _ => halong' x, hthere⟩

end

/-- The functions of the file that their callers see. -/
inductive Creator where
  | mkdirOwn (mode : Nat)
  | mkdirParents (mode : Nat)
  | touch

def Creator.run (c : Creator) (rootfd : Nat) (rel : CStr) (uid gid : UInt32) :
    StateM Guest Int :=
  match c with
  | .mkdirOwn mode => ioMkdirOwnAt rootfd rel uid gid mode
  | .mkdirParents mode => ioMkdirParentsAt rootfd rel uid gid mode
  | .touch => ioTouchAt rootfd rel uid gid

/-- The owner of the missing directories on the way. -/
def Creator.parents (c : Creator) (uid gid : UInt32) : Owner :=
  match c with
  | .mkdirParents _ => { uid := 0, gid := 0 }
  | _ => { uid := uid, gid := gid }

/-- What success means. -/
structure Made (g₀ g : Guest) (cs : Loc) (parents leaf : Owner) : Prop where
  dirs : ∀ l, l <+: cs → l ≠ cs → IsDir g l
  parents : ∀ l, l <+: cs → l ≠ cs → g₀.objs.lookup l = none →
    g.objs.lookup l = some (madeDir parents)
  leaf : LeafOwned g₀ g cs leaf

theorem Walk.made {g₀ g : Guest} {cs m : Loc} {rootfd cur : Nat} {name : CStr} {o leaf : Owner}
    (h : Walk g₀ g cs rootfd cur m) (hcs : m ++ [name] = cs) (hbut : AlongBut g₀ g m o cs)
    (hleaf : LeafOwned g₀ g cs leaf) : Made g₀ g cs o leaf := by
  have habove {l : Loc} (hl : l <+: cs) (hne : l ≠ cs) : l <+: m := by
    rw [← hcs] at hl hne
    exact (List.prefix_concat_iff.mp hl).resolve_left hne
  refine ⟨fun l hl hne => h.dirs l (habove hl hne), fun l hl hne hnone => ?_, hleaf⟩
  rw [hbut l hne]
  exact if_pos ⟨habove hl hne, hnone⟩

theorem Made.look {g₀ g g' : Guest} {cs : Loc} {o leaf : Owner} (hobjs : g'.objs = g.objs)
    (h : Made g₀ g cs o leaf) : Made g₀ g' cs o leaf := by
  obtain ⟨hdirs, hparents, hleaf⟩ := h
  constructor
  · unfold IsDir
    rw [hobjs]
    exact hdirs
  · rw [hobjs]
    exact hparents
  · unfold LeafOwned
    rw [hobjs]
    exact hleaf

theorem releaseParent_made {g₀ : Guest} {cs m : Loc} {rootfd cur : Nat} {name : CStr}
    {o leaf : Owner} (hroot : g₀.fds.lookup rootfd = some (.under [])) (hcs : m ++ [name] = cs)
    (r : Int) :
    Triple (fun g => Walk g₀ g cs rootfd cur m ∧
        (r = 0 → AlongBut g₀ g m o cs ∧ LeafOwned g₀ g cs leaf))
      (do
        releaseParent cur rootfd
        pure r)
      fun r g => Done g₀ g cs ∧ (r = 0 → Made g₀ g cs o leaf) := by
  have hlook : ∀ g g' : Guest, g'.objs = g.objs → (r = 0 → Made g₀ g cs o leaf) →
      r = 0 → Made g₀ g' cs o leaf :=
    fun _ _ hobjs h hr => (h hr).look hobjs
  intro g ⟨hwalk, hleaf⟩
  exact releaseParent_done hroot hlook g
    ⟨hwalk, fun hr => hwalk.made hcs (hleaf hr).1 (hleaf hr).2⟩

theorem touchLeaf_spec {g₀ : Guest} {cs : Loc} {rootfd parent : Nat} {name : CStr} {m : Loc}
    (hcs : m ++ [name] = cs) (hvalid : ∀ c ∈ cs, c ≠ [dot] ∧ c ≠ [dot, dot]) (o : Owner)
    (uid gid : UInt32) :
    Triple (fun g => Walk g₀ g cs rootfd parent m ∧ Along g₀ g m o)
      (do
        let fd ← sysOpenat parent name { nofollow := true, directory := false, creat := true }
        match fd with
        | none => pure (-1)
        | some fd => do
            sysClose fd
            chownLeaf parent name uid gid)
      fun r g => Walk g₀ g cs rootfd parent m ∧
        (r = 0 → AlongBut g₀ g m o cs ∧
          LeafOwned g₀ g cs { uid := uid, gid := gid }) := by
  refine Triple.bind (openLeaf_spec hcs hvalid o) fun fd => ?_
  cases fd with
  | none => exact Triple.pure fun g hg => ⟨hg.1 rfl, fun h => absurd h (by decide)⟩
  | some fd =>
    intro g hg
    exact chownLeaf_spec hcs hvalid o uid gid _ (hg.2 fd rfl)

theorem ioTouchAt_eq (rootfd : Nat) (rel : CStr) (uid gid : UInt32) :
    ioTouchAt rootfd rel uid gid = (do
      let d ← descendComponents rootfd rel { uid := uid, gid := gid }
      match d with
      | none => pure (-1)
      | some (parent, name) => do
          let r ← (do
            let fd ← sysOpenat parent name { nofollow := true, directory := false, creat := true }
            match fd with
            | none => pure (-1)
            | some fd => do
                sysClose fd
                chownLeaf parent name uid gid)
          releaseParent parent rootfd
          pure r) := by
  unfold ioTouchAt
  refine bind_congr fun d => ?_
  cases d with
  | none => rfl
  | some d =>
    dsimp only
    rw [bind_assoc]
    refine bind_congr fun fd => ?_
    cases fd with
    | none => rfl
    | some fd => rfl

section

variable {g₀ : Guest} {rootfd : Nat} {rel : CStr}
  (hroot : g₀.fds.lookup rootfd = some (.under [])) (hdir : IsDir g₀ [])
  (hvalid : ∀ c ∈ comps rel, c ≠ [dot] ∧ c ≠ [dot, dot])

include hroot hdir hvalid

/-- The common course of the creators: `leafOp` makes the leaf in the directory
that the walk comes to. -/
theorem walk_spec (o leaf : Owner) {leafOp : Nat → CStr → StateM Guest Int}
    (hleaf : ∀ parent name m, m ++ [name] = comps rel →
      Triple (fun g => Walk g₀ g (comps rel) rootfd parent m ∧ Along g₀ g m o)
        (leafOp parent name)
        fun r g => Walk g₀ g (comps rel) rootfd parent m ∧
          (r = 0 → AlongBut g₀ g m o (comps rel) ∧ LeafOwned g₀ g (comps rel) leaf)) :
    Triple (fun g => g = g₀)
      (do
        let d ← descendComponents rootfd rel o
        match d with
        | none => pure (-1)
        | some (parent, name) => do
            let r ← leafOp parent name
            releaseParent parent rootfd
            pure r)
      fun r g => Done g₀ g (comps rel) ∧ (r = 0 → Made g₀ g (comps rel) o leaf) := by
  refine Triple.bind (descendComponents_spec hroot hdir hvalid o) fun d => ?_
  cases d with
  | none => exact Triple.pure fun g hg => ⟨hg.1 rfl, fun h => absurd h (by decide)⟩
  | some d =>
    obtain ⟨parent, name⟩ := d
    intro g hg
    obtain ⟨m, hcs, hwalk, halong⟩ := hg.2 parent name rfl
    exact Triple.bind (hleaf parent name m hcs.symm)
      (fun r => releaseParent_made hroot hcs.symm r) g ⟨hwalk, halong⟩

/-- Whatever the tree holds and whichever calls fail, a creator touches objects
below the root only, leaves what it walks through, and closes what it opens. When
it succeeds, what it made has the owners asked for, where -1 asks for none. -/
theorem creator_confined (c : Creator) (uid gid : UInt32) :
    Done g₀ (c.run rootfd rel uid gid g₀).2 (comps rel) ∧
      ((c.run rootfd rel uid gid g₀).1 = 0 →
        Made g₀ (c.run rootfd rel uid gid g₀).2 (comps rel) (c.parents uid gid)
          { uid := uid, gid := gid }) := by
  cases c with
  | mkdirOwn mode =>
    exact walk_spec hroot hdir hvalid _ _
      (fun _ _ _ hcs => mkdirLeaf_spec hcs hvalid _ _ mode) g₀ rfl
  | mkdirParents mode =>
    exact walk_spec hroot hdir hvalid _ _
      (fun _ _ _ hcs => mkdirLeaf_spec hcs hvalid _ _ mode) g₀ rfl
  | touch =>
    unfold Creator.run
    dsimp only
    rw [ioTouchAt_eq]
    exact walk_spec hroot hdir hvalid _ _
      (fun _ _ _ hcs => touchLeaf_spec hcs hvalid _ uid gid) g₀ rfl

end

/-- An empty tree, open as 3. -/
def emptyGuest : Guest where
  objs := AList.singleton [] { content := .dir, uid := 0, gid := 0 }
  fds := AList.singleton 3 (.under [])
  touched := []
  faults := []

theorem creator_confined_made :
    Done emptyGuest ((Creator.mkdirOwn 0o755).run 3 (lit "a//b/") 7 8 emptyGuest).2
        [lit "a", lit "b"] ∧
      Made emptyGuest ((Creator.mkdirOwn 0o755).run 3 (lit "a//b/") 7 8 emptyGuest).2
        [lit "a", lit "b"] { uid := 7, gid := 8 } { uid := 7, gid := 8 } := by
  have hroot : emptyGuest.fds.lookup 3 = some (.under []) := rfl
  have hdir : IsDir emptyGuest [] := rfl
  have hvalid : ∀ c ∈ comps (lit "a//b/"), c ≠ [dot] ∧ c ≠ [dot, dot] := by decide
  obtain ⟨hdone, hmade⟩ := creator_confined hroot hdir hvalid (.mkdirOwn 0o755) 7 8
  exact ⟨hdone, hmade (by decide +kernel)⟩

/-- An owner of -1 is no owner that an object can have. -/
theorem creator_owner_unchanged :
    ¬ ∀ (c : Creator) (g₀ : Guest) (rootfd : Nat) (rel : CStr) (uid gid : UInt32),
      g₀.fds.lookup rootfd = some (.under []) → IsDir g₀ [] →
      (∀ x ∈ comps rel, x ≠ [dot] ∧ x ≠ [dot, dot]) → (c.run rootfd rel uid gid g₀).1 = 0 →
      ∀ l, l <+: comps rel → l ≠ comps rel → g₀.objs.lookup l = none →
        ((c.run rootfd rel uid gid g₀).2.objs.lookup l).map Obj.uid =
          some (c.parents uid gid).uid := by
  intro h
  have hlie := h (.mkdirOwn 0o755) emptyGuest 3 (lit "a/b") 0xFFFFFFFF 8 rfl rfl (by decide)
    (by decide +kernel) [lit "a"] (by decide) (by decide) (by decide)
  revert hlie
  decide +kernel

end Cage.Util.At
