import Cage.Util.MakesPath

/-!
The two models of a file system agree. On a volume without links, where nothing is
refused, the calls of `io.c` answer for every canonical path as they do on a disk whose
calls do not fail, and leave the same behind.
-/

namespace Cage.Util.Volume

def nodeBody : Node → Body
  | .dir => .dir
  | .file => .file

/-- The disk has what the volume has. -/
structure Shows (t : Tree) (u : Util.Tree) : Prop where
  root : u.lookup [] = some .dir
  same : ∀ l, bodyAt t l = (u.lookup l).map nodeBody

/-- A kernel that refuses nothing. -/
structure Yielding (k : Kernel) : Prop where
  makes : ∀ t l, k.refuses t l = none
  owns : ∀ l, k.refusesChown l = false
  drops : ∀ l, k.keeps l = false
  opens : ∀ l, k.closed l = false
  lists : ∀ l, k.hides l = false

/-- A disk on which no call fails. -/
def sound (u : Util.Tree) : Disk := { tree := u, faults := [] }

/-- The error of a call that fails. -/
def refusal {A : Type} : Except Errno A → Option Errno
  | .error e => some e
  | .ok _ => none

/-- The call on the volume answers as that on the disk does, and leaves the same. -/
def Alike {A : Type} (m : StateM Tree A) (m' : StateM Disk A) : Prop :=
  ∀ t u, Shows t u → ∃ u', m' (sound u) = ((m t).1, sound u') ∧ Shows (m t).2 u'

section Lookups

variable {k : Kernel} {t : Tree} {u : Util.Tree} {l cs : Loc} {c : CStr}

theorem Shows.noLinks (h : Shows t u) : NoLinks t := by
  intro l target hl
  rw [h.same] at hl
  obtain ⟨n, -, hn⟩ := Option.map_eq_some_iff.mp hl
  cases n <;> cases hn

theorem diskWalk_snoc : Util.walk u l (cs ++ [c]) =
    match Util.walk u l cs with
    | .error e => .error e
    | .ok .file => .error .other
    | .ok .dir =>
        if c.length > nameMax then .error .other
        else
          match u.lookup (l ++ cs ++ [c]) with
          | none => .error .enoent
          | some n => .ok n := by
  induction cs generalizing l with
  | nil =>
    rw [List.nil_append, List.append_nil, Util.walk, Util.walk]
    cases u.lookup l with
    | none => rfl
    | some n => cases n <;> rfl
  | cons d cs ih =>
    rw [List.cons_append, Util.walk, Util.walk]
    cases u.lookup l with
    | none => rfl
    | some n =>
      cases n with
      | file => rfl
      | dir =>
        dsimp only
        split
        · rfl
        · rw [ih, List.append_assoc l [d] cs, List.singleton_append]

/-- What a lookup on the disk finds stands at the end of the path. -/
theorem diskWalk_lookup {n : Node} (h : Util.walk u l cs = .ok n) :
    u.lookup (l ++ cs) = some n := by
  induction cs generalizing l with
  | nil =>
    rw [Util.walk] at h
    rw [List.append_nil]
    cases hl : u.lookup l with
    | none =>
      rw [hl] at h
      cases h
    | some n' =>
      rw [hl] at h
      cases h
      rfl
  | cons c cs ih =>
    rw [Util.walk] at h
    split at h
    · cases h
    · cases h
    · split at h
      · cases h
      · have hrest := ih h
        rwa [List.append_assoc, List.singleton_append] at hrest

theorem Shows.piece (h : Shows t u) (hc : ValidName c) :
    piece t l c =
      if c.length > nameMax then .long
      else
        match u.lookup (l ++ [c]) with
        | none => .missing
        | some .dir => .dir
        | some .file => .other := by
  rw [Volume.piece, if_neg hc.2.2.1, if_neg hc.2.2.2, h.same]
  cases u.lookup (l ++ [c]) with
  | none => rfl
  | some n => cases n <;> rfl

/-- Directories are entered on the volume where the disk has directories. -/
theorem Shows.enter (h : Shows t u) (hl : u.lookup l = some .dir) (hcs : ∀ c ∈ cs, ValidName c) :
    enter t l cs =
      match Util.walk u l cs with
      | .error e => .error e
      | .ok .file => .error .other
      | .ok .dir => .ok (l ++ cs) := by
  induction cs generalizing l with
  | nil =>
    rw [Util.walk, hl, List.append_nil]
    rfl
  | cons c cs ih =>
    have henter : Volume.enter t l (c :: cs) =
        (enterStep t l c).bind fun m => Volume.enter t m cs := rfl
    rw [henter, enterStep, h.piece (hcs c List.mem_cons_self), Util.walk, hl]
    by_cases hlen : c.length > nameMax
    · simp only [if_pos hlen]
      rfl
    · simp only [if_neg hlen]
      cases hc : u.lookup (l ++ [c]) with
      | none => cases cs <;> rw [Util.walk, hc] <;> rfl
      | some n =>
        cases n with
        | file => cases cs <;> rw [Util.walk, hc] <;> rfl
        | dir =>
          have hrest := ih hc fun d hd => hcs d (List.mem_cons_of_mem c hd)
          rw [List.append_assoc, List.singleton_append] at hrest
          exact hrest

/-- A path with a last component, as the path in front of it and that component. -/
theorem split_str {p : Path} (hp : p.loc = cs ++ [c]) : Split p.str (renderTail cs) c where
  eq := by
    rw [str_of_ne_root (by rw [hp]; exact List.concat_ne_nil c cs), hp, renderTail_append]
    exact congrArg (renderTail cs ++ slash :: ·) (List.append_nil c)
  piece := (p.valid c (hp ▸ List.mem_append_right cs List.mem_cons_self)).2.1

theorem absolute_str {p : Path} (hshort : p.str.length < pathMax) : Absolute p.str where
  head := by
    obtain ⟨l, hl⟩ := p
    cases l <;> rfl
  short := hshort

theorem str_ne_nil (p : Path) : p.str ≠ [] := by
  obtain ⟨l, hl⟩ := p
  cases l <;> exact List.cons_ne_nil _ _

variable {p : Path} {follow : Bool}

theorem valid_front (hp : p.loc = cs ++ [c]) : ∀ d ∈ cs, ValidName d :=
  fun d hd => p.valid d (hp ▸ List.mem_append_left [c] hd)

theorem valid_last (hp : p.loc = cs ++ [c]) : ValidName c :=
  p.valid c (hp ▸ List.mem_append_right cs List.mem_cons_self)

theorem parts_str (hp : p.loc = cs ++ [c]) : parts p.str = cs ++ [c] := by
  have hne : c ≠ [] := (valid_last hp).1
  rw [parts, comps_str, hp, (split_str hp).slashed, decide_eq_false hne]
  exact List.append_nil _

/-- Where a lookup of a path ends, whatever a missing last component means. -/
theorem Shows.findWith (h : Shows t u) (hshort : p.str.length < pathMax)
    (hp : p.loc = cs ++ [c]) (gone : Loc → Except Errno Loc) :
    findWith k gone t follow p.str =
      match Util.walk u [] cs with
      | .error e => .error e
      | .ok .file => .error .other
      | .ok .dir =>
          if c.length > nameMax then .error .other
          else
            match u.lookup p.loc with
            | none => gone p.loc
            | some _ => .ok p.loc := by
  have habs := absolute_str hshort
  rw [Volume.findWith, if_neg habs.ne_nil, if_neg (Nat.not_le.mpr hshort), start,
    if_pos habs.head, parts_str hp, walk_append h.noLinks (List.cons_ne_nil c []),
    h.enter h.root (valid_front hp), hp]
  cases Util.walk u [] cs with
  | error e => rfl
  | ok n =>
    cases n with
    | file => rfl
    | dir =>
      show Volume.walk t follow gone linksMax cs [c] = _
      unfold linksMax Volume.walk
      rw [walkWith_cons h.noLinks, h.piece (valid_last hp)]
      by_cases hlen : c.length > nameMax
      · simp only [if_pos hlen]
      · simp only [if_neg hlen]
        cases u.lookup (cs ++ [c]) with
        | none => rfl
        | some n => cases n <;> rfl

theorem str_root (hp : p.loc = []) : p.str = [slash] := by
  obtain ⟨l, hl⟩ := p
  cases hp
  rfl

theorem entry_snoc (hshort : p.str.length < pathMax) (hp : p.loc = cs ++ [c]) :
    (sound u).entry p.str =
      match Util.walk u [] cs with
      | .error e => .error e
      | .ok .file => .error .other
      | .ok .dir => if c.length > nameMax then .error .other else .ok p.loc := by
  rw [Disk.entry, if_neg (Nat.not_le.mpr hshort), comps_str, hp, List.getLast?_concat,
    List.dropLast_concat]
  rfl

theorem find_snoc (hshort : p.str.length < pathMax) (hp : p.loc = cs ++ [c]) :
    (sound u).find p.str =
      match Util.walk u [] cs with
      | .error e => .error e
      | .ok .file => .error .other
      | .ok .dir =>
          if c.length > nameMax then .error .other
          else
            match u.lookup p.loc with
            | none => .error .enoent
            | some n => .ok n := by
  rw [Disk.find, if_neg (Nat.not_le.mpr hshort), comps_str, hp]
  exact diskWalk_snoc

/-- What is looked up on the disk stands in its tree. -/
theorem lookup_of_find {n : Node} (h : (sound u).find p.str = .ok n) :
    u.lookup p.loc = some n := by
  unfold Disk.find at h
  split at h
  · cases h
  · rw [comps_str] at h
    exact diskWalk_lookup h

theorem Shows.find (h : Shows t u) (p : Path) :
    find k t follow p.str = ((sound u).find p.str).map fun _ => p.loc := by
  by_cases hshort : p.str.length < pathMax
  · rcases List.eq_nil_or_concat p.loc with hp | ⟨cs, c, hp⟩
    · have hlast : Volume.find k t follow [slash] = .ok [] := rfl
      have hdisk : (sound u).find [slash] = .ok .dir := by
        show Util.walk u [] [] = .ok .dir
        rw [Util.walk, h.root]
      rw [str_root hp, hlast, hdisk, hp]
      rfl
    · rw [List.concat_eq_append] at hp
      rw [Volume.find, h.findWith hshort hp, find_snoc hshort hp]
      cases Util.walk u [] cs with
      | error e => rfl
      | ok n =>
        cases n with
        | file => rfl
        | dir =>
          dsimp only
          split
          · rfl
          · cases u.lookup p.loc <;> rfl
  · rw [Volume.find, Volume.findWith, if_neg (str_ne_nil p), if_pos (Nat.not_lt.mp hshort),
      Disk.find, if_pos (Nat.not_lt.mp hshort)]
    rfl

/-- Both lookups see the same thing. -/
theorem Shows.lookInode (h : Shows t u) (p : Path) (follow : Bool) :
    (lookInode k t follow p.str).map (fun i => i.body) =
      ((sound u).find p.str).map nodeBody := by
  rw [Volume.lookInode, h.find p]
  cases hfind : (sound u).find p.str with
  | error e => rfl
  | ok n =>
    have hbody := h.same p.loc
    rw [lookup_of_find hfind] at hbody
    obtain ⟨i, hi, hb⟩ := Option.map_eq_some_iff.mp hbody
    dsimp only [Except.map]
    rw [hi, ← hb]

theorem Shows.lookKind (h : Shows t u) (p : Path) (follow : Bool) :
    lookKind k t follow p.str = Util.lookKind p.str (sound u) := by
  have hlook := h.lookInode (k := k) p follow
  unfold Volume.lookKind Util.lookKind
  cases hfind : (sound u).find p.str with
  | error e =>
    rw [hfind] at hlook
    cases hi : Volume.lookInode k t follow p.str with
    | error e' =>
      rw [hi] at hlook
      cases hlook
      rfl
    | ok i =>
      rw [hi] at hlook
      cases hlook
  | ok n =>
    rw [hfind] at hlook
    cases hi : Volume.lookInode k t follow p.str with
    | error e' =>
      rw [hi] at hlook
      cases hlook
    | ok i =>
      rw [hi] at hlook
      have hbody : i.body = nodeBody n := Except.ok.inj hlook
      show Except.ok i.body.kind = Except.ok n.kind
      rw [hbody]
      cases n <;> rfl

theorem Shows.lookErrno (h : Shows t u) (p : Path) :
    lookErrno k t p.str = Util.lookErrno p.str (sound u) := by
  have hvolume : Volume.lookErrno k t p.str = refusal (Volume.lookKind k t true p.str) := by
    unfold Volume.lookErrno Volume.lookKind
    cases Volume.lookInode k t true p.str <;> rfl
  have hdisk : Util.lookErrno p.str (sound u) = refusal (Util.lookKind p.str (sound u)) := by
    unfold Util.lookErrno Util.lookKind
    cases (sound u).find p.str <;> rfl
  rw [hvolume, hdisk, h.lookKind]

/-- The directory and the name of the last component. -/
theorem Shows.lastOf (h : Shows t u) (hp : p.loc = cs ++ [c]) :
    lastOf k t p.str = ((sound u).entry p.str).map fun _ => (cs, c) := by
  by_cases hshort : p.str.length < pathMax
  · rw [(absolute_str hshort).lastOf h.noLinks, comps_str, entry_snoc hshort hp, hp,
      List.dropLast_concat, List.getLast?_concat, h.enter h.root (valid_front hp)]
    cases hw : Util.walk u [] cs with
    | error e => rfl
    | ok n =>
      cases n with
      | file => rfl
      | dir =>
        show (if c.length > nameMax then .error .other else .ok ([] ++ cs, c) :
          Except Errno (Loc × CStr)) = _
        dsimp only
        split <;> rfl
  · rw [Volume.lastOf, if_neg (str_ne_nil p), if_pos (Nat.not_lt.mp hshort), Disk.entry,
      if_pos (Nat.not_lt.mp hshort)]
    rfl

end Lookups

section Changes

variable {k : Kernel} {t : Tree} {u : Util.Tree} {l : Loc} {n : Node} {i : Inode} {p : Path}

theorem Shows.insert (h : Shows t u) (hl : l ≠ []) (hi : i.body = nodeBody n) :
    Shows (t.insert l i) (u.insert l n) where
  root := (AList.lookup_insert_ne hl.symm).trans h.root
  same m := by
    rw [bodyAt_insert]
    split
    · rename_i hm
      rw [hm, AList.lookup_insert, hi]
      rfl
    · rename_i hm
      rw [AList.lookup_insert_ne hm, h.same]

theorem Shows.erase (h : Shows t u) (hl : l ≠ []) : Shows (t.erase l) (u.erase l) where
  root := (AList.lookup_erase_ne hl.symm).trans h.root
  same m := by
    unfold bodyAt
    by_cases hm : m = l
    · rw [hm, AList.lookup_erase, AList.lookup_erase]
      rfl
    · rw [AList.lookup_erase_ne hm, AList.lookup_erase_ne hm]
      exact h.same m

/-- The owner of a thing is none of the disk's business. -/
theorem Shows.own (h : Shows t u) (hi : bodyAt t l = some i.body) : Shows (t.insert l i) u where
  root := h.root
  same m := by
    rw [bodyAt_insert]
    split
    · rename_i hm
      rw [hm, ← hi, h.same]
    · exact h.same m

theorem Shows.mem_children (h : Shows t u) (l : Loc) (c : CStr) :
    c ∈ children t l ↔ c ∈ children u l := by
  have hsame : t.lookup (l ++ [c]) = none ↔ u.lookup (l ++ [c]) = none := by
    rw [← bodyAt_eq_none, h.same, Option.map_eq_none_iff]
  rw [Util.mem_children, Util.mem_children, Ne, Ne, hsame]

theorem change_sound (path : CStr)
    (act : Util.Tree → Loc → Option Node → Except Errno (Option Node)) (u : Util.Tree) :
    change path act (sound u) =
      match (sound u).entry path with
      | .error e => (some e, sound u)
      | .ok l =>
          match act u l (u.lookup l) with
          | .error e => (some e, sound u)
          | .ok r => (none, sound (setEntry u l r)) := rfl

/-- What a call on the volume makes of an entry is what the disk's rule says. -/
def Obeys (r : Option Errno × Tree) (t : Tree) (u : Util.Tree) (l : Loc) :
    Except Errno (Option Node) → Prop
  | .error e => r = (some e, t)
  | .ok n => r.1 = none ∧ Shows r.2 (setEntry u l n)

/-- A call that works on the last component, on the volume and on the disk. -/
theorem alike_entry {m : StateM Tree (Option Errno)}
    {act : Util.Tree → Loc → Option Node → Except Errno (Option Node)}
    {g : Tree → Loc → CStr → Option Errno × Tree}
    (hm : ∀ t, m t = match lastOf k t p.str with
      | .error e => (some e, t)
      | .ok (l, c) => g t l c)
    (hroot : ∀ t u, Obeys (g t [] [dot]) t u [] (act u [] (some .dir)))
    (hentry : ∀ t u cs c, Shows t u → p.loc = cs ++ [c] → ValidName c →
      Obeys (g t cs c) t u p.loc (act u p.loc (u.lookup p.loc))) :
    Alike m (change p.str act) := by
  intro t u h
  have hobeys {r : Option Errno × Tree} {l : Loc}
      (hr : Obeys r t u l (act u l (u.lookup l))) :
      ∃ u', (match act u l (u.lookup l) with
        | .error e => (some e, sound u)
        | .ok r => (none, sound (setEntry u l r))) = (r.1, sound u') ∧ Shows r.2 u' := by
    cases hact : act u l (u.lookup l) with
    | error e =>
      rw [hact] at hr
      obtain rfl : r = (some e, t) := hr
      exact ⟨u, rfl, h⟩
    | ok n =>
      rw [hact] at hr
      exact ⟨_, Prod.ext hr.1.symm rfl, hr.2⟩
  rw [hm, change_sound]
  rcases List.eq_nil_or_concat p.loc with hp | ⟨cs, c, hp⟩
  · have hlast : lastOf k t p.str = .ok ([], [dot]) := by rw [str_root hp]; rfl
    have hdisk : (sound u).entry p.str = .ok [] := by rw [str_root hp]; rfl
    rw [hlast, hdisk]
    exact hobeys (h.root ▸ hroot t u)
  · rw [List.concat_eq_append] at hp
    rw [h.lastOf hp]
    cases hentry' : (sound u).entry p.str with
    | error e => exact ⟨u, rfl, h⟩
    | ok l =>
      obtain rfl : l = p.loc := (entry_loc hentry').trans (comps_str p)
      exact hobeys (hentry t u cs c h hp (valid_last hp))

theorem not_slashed {cs : Loc} {c : CStr} (hp : p.loc = cs ++ [c]) : slashed p.str = false := by
  rw [(split_str hp).slashed]
  exact decide_eq_false (valid_last hp).1

theorem alike_unlink (hk : Yielding k) (p : Path) :
    Alike ((volume k).unlink p.str) (disk.unlink p.str) := by
  refine alike_entry (fun t => rfl) (fun t u => rfl) fun t u cs c h hp hc => ?_
  rw [special_of_valid hc, not_slashed hp, hk.drops, h.same, hp]
  have hne : cs ++ [c] ≠ [] := List.concat_ne_nil c cs
  cases u.lookup (cs ++ [c]) with
  | none => rfl
  | some n =>
    cases n with
    | dir => rfl
    | file => exact ⟨rfl, h.erase hne⟩

theorem alike_mkdir (hk : Yielding k) (p : Path) (mode : Nat) :
    Alike ((volume k).mkdir p.str mode) (disk.mkdir p.str mode) := by
  refine alike_entry (fun t => rfl) (fun t u => rfl) fun t u cs c h hp hc => ?_
  have hsame := h.same (cs ++ [c])
  rw [special_of_valid hc, hk.makes, hp]
  have hne : cs ++ [c] ≠ [] := List.concat_ne_nil c cs
  unfold bodyAt at hsame
  cases hu : u.lookup (cs ++ [c]) with
  | none =>
    rw [hu, Option.map_none, Option.map_eq_none_iff] at hsame
    rw [hsame]
    exact ⟨rfl, h.insert hne rfl⟩
  | some n =>
    rw [hu] at hsame
    obtain ⟨i, hi, -⟩ := Option.map_eq_some_iff.mp hsame
    rw [hi]
    rfl

theorem alike_rmdir (hk : Yielding k) (p : Path) :
    Alike ((volume k).rmdir p.str) (disk.rmdir p.str) := by
  have hroot (u : Util.Tree) : rmdirEntry u [] (some .dir) = .error .other := by
    unfold rmdirEntry
    rw [if_pos (Or.inl rfl)]
  refine alike_entry (fun t => rfl) (fun t u => hroot u ▸ rfl) fun t u cs c h hp hc => ?_
  rw [special_of_valid hc, hk.drops, h.same, hp]
  have hne : cs ++ [c] ≠ [] := List.concat_ne_nil c cs
  cases u.lookup (cs ++ [c]) with
  | none => rfl
  | some n =>
    cases n with
    | file => rfl
    | dir =>
      have hempty : children t (cs ++ [c]) = [] ↔ children u (cs ++ [c]) = [] := by
        rw [List.eq_nil_iff_forall_not_mem, List.eq_nil_iff_forall_not_mem]
        exact forall_congr' fun d => not_congr (h.mem_children _ d)
      unfold rmdirEntry
      by_cases hnil : children u (cs ++ [c]) = []
      · simp only [hempty.mpr hnil, hnil, hne, ne_eq, not_true_eq_false, or_self,
          Bool.false_eq_true, if_false, Option.map_some]
        exact ⟨rfl, h.erase hne⟩
      · simp only [mt hempty.mp hnil, hnil, hne, ne_eq, not_false_eq_true, or_true, true_or,
          if_true, Option.map_some]
        rfl

/-- A path that is to be made is looked up as far as its last component. -/
theorem Shows.creatable (h : Shows t u) (p : Path) :
    Volume.findWith k .ok t true p.str = (sound u).entry p.str := by
  by_cases hshort : p.str.length < pathMax
  · rcases List.eq_nil_or_concat p.loc with hp | ⟨cs, c, hp⟩
    · rw [str_root hp]
      rfl
    · rw [List.concat_eq_append] at hp
      rw [h.findWith hshort hp, entry_snoc hshort hp]
      cases u.lookup p.loc <;> rfl
  · rw [Volume.findWith, if_neg (str_ne_nil p), if_pos (Nat.not_lt.mp hshort), Disk.entry,
      if_pos (Nat.not_lt.mp hshort)]

theorem alike_creat (hk : Yielding k) (p : Path) (mode : Nat) :
    Alike ((volume k).creat p.str mode) (disk.creat p.str mode) := by
  intro t u h
  show ∃ u', change p.str creatEntry (sound u) = ((creatAt k p.str t).1, sound u') ∧
    Shows (creatAt k p.str t).2 u'
  rw [change_sound, creatAt, h.creatable p]
  cases hentry : (sound u).entry p.str with
  | error e => exact ⟨u, rfl, h⟩
  | ok l =>
    simp only [hk.makes, h.same]
    have hroot (hl : u.lookup l ≠ some .dir) : l ≠ [] := fun hnil => hl (hnil ▸ h.root)
    cases hl : u.lookup l with
    | none => exact ⟨_, rfl, h.insert (hroot (by simp [hl])) rfl⟩
    | some n =>
      cases n with
      | dir => exact ⟨u, rfl, h⟩
      | file =>
        -- the disk writes the same entry again
        have hne : l ≠ [] := hroot (by simp [hl])
        refine ⟨u.insert l .file, rfl, (AList.lookup_insert_ne hne.symm).trans h.root, fun m => ?_⟩
        refine (h.same m).trans ?_
        by_cases hm : m = l
        · rw [hm, AList.lookup_insert, hl]
        · rw [AList.lookup_insert_ne hm]

theorem alike_chown (hk : Yielding k) (p : Path) (uid gid : UInt32) :
    Alike ((volume k).chown p.str uid gid) (disk.chown p.str uid gid) := by
  intro t u h
  refine ⟨u, ?_⟩
  show (Util.lookErrno p.str (sound u), sound u) = ((chownAt k p.str uid gid t).1, sound u) ∧
    Shows (chownAt k p.str uid gid t).2 u
  rw [← h.lookErrno (k := k) p]
  unfold Volume.lookErrno Volume.lookInode chownAt
  cases find k t true p.str with
  | error e => exact ⟨rfl, h⟩
  | ok l =>
    dsimp only
    cases hi : t.lookup l with
    | none => exact ⟨rfl, h⟩
    | some i =>
      simp only [hk.owns]
      refine ⟨rfl, h.own ?_⟩
      rw [bodyAt, hi]
      rfl

/-- On canonical paths the disk is the volume without links: each call answers the
same, and what it leaves is the same again. -/
theorem volume_alike_disk (hk : Yielding k) (p : Path) :
    Alike ((volume k).access p.str) (disk.access p.str) ∧
      Alike ((volume k).stat p.str) (disk.stat p.str) ∧
      Alike ((volume k).lstat p.str) (disk.lstat p.str) ∧
      Alike ((volume k).unlink p.str) (disk.unlink p.str) ∧
      Alike ((volume k).rmdir p.str) (disk.rmdir p.str) ∧
      (∀ mode, Alike ((volume k).mkdir p.str mode) (disk.mkdir p.str mode)) ∧
      (∀ uid gid, Alike ((volume k).chown p.str uid gid) (disk.chown p.str uid gid)) ∧
      ∀ mode, Alike ((volume k).creat p.str mode) (disk.creat p.str mode) := by
  refine ⟨fun t u h => ?_, fun t u h => ?_, fun t u h => ?_, alike_unlink hk p,
    alike_rmdir hk p, alike_mkdir hk p, alike_chown hk p, alike_creat hk p⟩
  · exact ⟨u, congrArg (·, sound u) (h.lookErrno p).symm, h⟩
  · exact ⟨u, congrArg (·, sound u) (h.lookKind p true).symm, h⟩
  · exact ⟨u, congrArg (·, sound u) (h.lookKind p false).symm, h⟩

/-- A directory lists the same names, besides the two for itself and what it is in. -/
theorem openDir_alike (hk : Yielding k) (h : Shows t u) (p : Path) :
    Option.Rel (fun names names' => ∀ c, c ∈ names ↔ c = [dot] ∨ c = [dot, dot] ∨ c ∈ names')
      (openDir k t p.str) (Util.openDir p.str (sound u)) := by
  unfold Volume.openDir Util.openDir
  rw [h.find p]
  cases hfind : (sound u).find p.str with
  | error e => exact .none
  | ok n =>
    have hbody := h.same p.loc
    rw [lookup_of_find hfind] at hbody
    show Option.Rel _ (if bodyAt t p.loc = some .dir ∧ k.closed p.loc = false then _ else _) _
    rw [hbody, hk.opens, comps_str]
    cases n with
    | file => exact .none
    | dir =>
      refine .some fun c => ?_
      simp only [List.mem_cons, List.mem_filter, hk.lists, Bool.not_false, and_true,
        h.mem_children p.loc c]
      rfl

end Changes

end Cage.Util.Volume
