import Xv6Ipc.Files.Tree

/-!
# Files/Resolve — what a path means

A path is a list of components, and a component leads from a directory to what it has under that name:

    origin ──c₁──▸ · ──c₂──▸ · … ──cₙ──▸ namei          nameiparent stops before cₙ

`namex` walks them in two modes, and locks and gives back an inode at each step; what comes of it is the
fold (`State.named`, `State.parentOf`).  It holds two references at a time, so that `iget` panics only
where fewer than two entries of the cache are left.
-/

namespace Xv6.Fs

open Outcome

/-- The components of a path, up to its zero byte, each cut to `DIRSIZ` bytes. -/
def components (path : List Nat) : List (List Nat) :=
  (((path.takeWhile (· ≠ 0)).splitOn slash).filter (· ≠ [])).map (List.take DIRSIZ)

namespace State

variable (fs : State)

/-- Where a component leads: from a directory, to what it has under that name. -/
def follow (i : Nat) (name : List Nat) : Option Nat :=
  if (fs.din i).type = .dir then (fs.lookup i name).map Prod.fst else none

/-- **What a path names.** -/
def named (p : Slot) (path : List Nat) : Option Nat :=
  (fs.origin p path).bind fun i => (components path).foldlM fs.follow i

/-- **The directory a path ends in**, and the component it ends with. -/
def parentOf (p : Slot) (path : List Nat) : Option (Nat × List Nat) :=
  (components path).getLast?.bind fun last =>
    ((fs.origin p path).bind fun i => (components path).dropLast.foldlM fs.follow i).bind fun d =>
      if (fs.din d).type = .dir then some (d, last) else none

end State

/-- The inode cache has fewer than two entries left. -/
def Full (X : List Nat) (fs : State) (e : Panic) : Prop :=
  e = .iget ∧ NINODE ≤ (X ++ fs.fileRefs).toFinset.card + 1

variable {X : List Nat} {fs : State} {i d : Nat} {p : Slot} {path name : List Nat}
  {names : List (List Nat)}

/-! ## The walk is a fold -/

theorem walk_false (fs : State) (names : List (List Nat)) (i : Nat) :
    (fs.walk false names i).map Prod.fst = names.foldlM fs.follow i := by
  induction names generalizing i with
  | nil => rfl
  | cons name names ih =>
    rw [List.foldlM_cons, State.walk, State.follow]
    by_cases hdir : (fs.din i).type = .dir
    · rw [if_neg (not_not.mpr hdir), if_neg (fun hp => by cases hp.1), if_pos hdir]
      cases fs.lookup i name with
      | none => rfl
      | some found => exact ih found.1
    · rw [if_pos hdir, if_neg hdir]
      rfl

/-- …and the other mode stops at the last component. -/
theorem walk_true (fs : State) (names : List (List Nat)) (i : Nat) : fs.walk true names i
    = names.getLast?.bind fun last => (names.dropLast.foldlM fs.follow i).bind fun d =>
      if (fs.din d).type = .dir then some (d, last) else none := by
  induction names generalizing i with
  | nil => rfl
  | cons name names ih =>
    rw [State.walk]
    cases names with
    | nil =>
      by_cases hdir : (fs.din i).type = .dir
      · rw [if_neg (not_not.mpr hdir), if_pos ⟨rfl, rfl⟩]
        exact (if_pos hdir).symm
      · rw [if_pos hdir]
        exact (if_neg hdir).symm
    | cons name' names =>
      rw [List.dropLast_cons_cons, List.foldlM_cons, List.getLast?_cons_cons, State.follow]
      by_cases hdir : (fs.din i).type = .dir
      · rw [if_neg (not_not.mpr hdir), if_neg (fun hp => by cases hp.2), if_pos hdir]
        cases fs.lookup i name with
        | none => exact (Option.bind_fun_none _).symm
        | some found => exact ih found.1
      · rw [if_pos hdir, if_neg hdir]
        exact (Option.bind_fun_none _).symm

theorem resolve_false : (fs.resolve p path false).map Prod.fst = fs.named p path := by
  rw [State.resolve, elems_eq, State.named, Option.map_bind]
  exact congrArg _ (funext fun i => walk_false fs _ i)

theorem resolve_true : fs.resolve p path true = fs.parentOf p path := by
  rw [State.resolve, elems_eq, State.parentOf]
  cases fs.origin p path with
  | none => exact (Option.bind_fun_none _).symm
  | some i => exact walk_true fs _ i

/-- **A path leads where its last component leads from its directory.** -/
theorem named_of_parentOf (h : fs.parentOf p path = some (d, name)) :
    fs.named p path = (fs.lookup d name).map Prod.fst := by
  obtain ⟨last, hlast, h⟩ := Option.bind_eq_some_iff.mp h
  obtain ⟨d', hd', h⟩ := Option.bind_eq_some_iff.mp h
  obtain ⟨i, hi, hfold⟩ := Option.bind_eq_some_iff.mp hd'
  split at h
  · rename_i hdir
    obtain ⟨rfl, rfl⟩ := Prod.mk.inj (Option.some.inj h)
    rw [State.named, hi, Option.bind_some, ← List.dropLast_append_getLast? _ hlast,
      List.foldlM_append, hfold]
    change (fs.follow d' last).bind some = _
    rw [Option.bind_fun_some, State.follow, if_pos hdir]
  · exact nomatch h

/-- **Path resolution.**  `namei` answers the fold over the components, and `nameiparent` the directory
that the path ends in; each takes a reference to what it answers and no other, unless there are not two
entries of the inode cache left for it.  What the fold looks up is what `dirlookup` answers. -/
theorem path_resolution (h : Sound X fs) (hf : Firm (fun _ => False) fs) (hc : fs.Counted)
    (hcwd : (fs.task p).cwd ≠ none) (path : List Nat) :
    Meets (namei p path fs) (Full X fs) (fun r fs' => r = fs.named p path ∧ Took X r fs fs')
    ∧ Meets (nameiparent p path fs) (Full X fs)
      (fun r fs' => r = fs.parentOf p path ∧ Took X (r.map Prod.fst) fs fs')
    ∧ (∀ d name, fs.parentOf p path = some (d, name) →
      fs.named p path = (fs.lookup d name).map Prod.fst)
    ∧ ∀ d name, (fs.inode d).valid = true → (fs.din d).type = .dir →
      Meets (dirlookup d name fs) (Full X fs)
        (fun r fs' => r = fs.lookup d name ∧ Took X (r.map Prod.fst) fs fs') := by
  have hroom : Room (Full X fs) X fs := by
    by_cases hlt : (X ++ fs.fileRefs).toFinset.card + 1 < NINODE
    · exact .inr ⟨hc, hlt⟩
    · exact .inl ⟨rfl, Nat.not_lt.mp hlt⟩
  have hfirm : Firm (Full X fs) fs := ⟨fun hz => (hf.root hz).elim, fun p d hd hz =>
    (hf.cwd p d hd hz).elim, fun d n i o hd hl hz => (hf.entry d n i o hd hl hz).elim⟩
  refine ⟨?_, ?_, fun d name => named_of_parentOf, fun d name hv hdir => ?_⟩
  · rw [← resolve_false]
    exact namei_held hroom (absurd · hcwd) hfirm h
  · rw [← resolve_true]
    exact namex_held hroom (absurd · hcwd) hfirm h
  · have hlt := hroom.lt (i := ROOTINO) (.refl fs) h fun _ => .inr
    exact (dirlookup_held hlt h hv (absurd hdir)).imp fun _ _ hr => hr.2

/-- The file of an image, by a path with a slash too many. -/
theorem path_resolution_note : ∃ fs', namei initproc (cstr "/home//note") Mkfs.noteImg.boot
    = .ok (Mkfs.noteImg.boot.named initproc (cstr "/home//note"), fs') := by
  obtain ⟨h, hnode⟩ := Mkfs.main_node Mkfs.main_note
  have hsound := h.boot
  rw [Mkfs.cwds_boot] at hsound
  have hres := (path_resolution (p := initproc) hsound (Mkfs.boot_firm h hnode) (Mkfs.boot_counted _)
    (by decide) (cstr "/home//note")).1
  have hnot : ∀ e, Full [ROOTINO] Mkfs.noteImg.boot e → False := fun e hfull => by
    have hfiles : Mkfs.noteImg.boot.fileRefs = [] := List.filterMap_eq_nil_iff.mpr fun _ _ => rfl
    have hle := hfull.2
    rw [hfiles] at hle
    exact absurd hle (by decide)
  obtain ⟨r, fs', hrun, rfl, -⟩ := (hres.mono hnot fun _ _ => id).returns
  exact ⟨fs', hrun⟩

end Xv6.Fs
