import Xv6Ipc.Files.Entries

/-!
# Files/Paths — `namex`

In a state that is in order `namex` answers what the directories on disk say (`State.resolve`), with a
reference to the inode, and leaves the disk as it is: the references it takes on its way it gives back,
and an inode without links that it passes has another.

`ilock` panics at an inode that is free.  `Firm` says that no path comes to one, or else that such a
panic is allowed.
-/

namespace Xv6.Fs

open Outcome

/-! ## The elements of a path -/

/-- The pieces between slashes, without the empty ones. -/
def pieces (path : List Nat) : List (List Nat) := (path.splitOn slash).filter (· ≠ [])

theorem pieces_slash (l : List Nat) : pieces (slash :: l) = pieces l := by
  rw [pieces, List.splitOn_eq_splitOnP, List.splitOnP_cons_eq_if_modifyHead,
    if_pos (beq_self_eq_true _)]
  rfl

/-- A piece and what follows it. -/
theorem pieces_append {s t : List Nat} (hne : s ≠ []) (hs : slash ∉ s)
    (ht : t = [] ∨ ∃ t', t = slash :: t') : pieces (s ++ t) = s :: pieces t := by
  rcases ht with rfl | ⟨t', rfl⟩
  · rw [List.append_nil, pieces, List.splitOn_eq_singleton hs]
    exact List.filter_cons_of_pos (decide_eq_true hne)
  · have hall : ∀ c ∈ s, (c == slash) = false := fun c hc =>
      beq_eq_false_iff_ne.mpr fun he => hs (he ▸ hc)
    rw [pieces_slash, pieces, List.splitOn_eq_splitOnP,
      List.splitOnP_append_cons_of_forall_mem hall _ (beq_self_eq_true _)]
    exact List.filter_cons_of_pos (decide_eq_true hne)

theorem pieces_dropWhile (l : List Nat) : pieces (l.dropWhile (· = slash)) = pieces l := by
  induction l with
  | nil => rfl
  | cons c l ih =>
    rw [List.dropWhile_cons]
    split_ifs with hc
    · rw [ih, of_decide_eq_true hc, pieces_slash]
    · rfl

/-- **`skipelem` finds the pieces one by one**, each cut to `DIRSIZ` bytes. -/
theorem elemsFrom_eq {n : Nat} {l : List Nat} (hn : l.length ≤ n) :
    elemsFrom n l = (pieces l).map (List.take DIRSIZ) := by
  induction n generalizing l with
  | zero =>
    obtain rfl : l = [] := List.length_eq_zero_iff.mp (Nat.le_zero.mp hn)
    rfl
  | succ n ih =>
    rw [elemsFrom, skipelem, ← pieces_dropWhile l]
    have hle := (List.dropWhile_suffix (fun c => decide (c = slash)) (l := l)).length_le
    have hhead := fun hne => List.head_dropWhile_not (fun c => decide (c = slash)) (l := l) hne
    generalize l.dropWhile (· = slash) = m at *
    cases m with
    | nil => rfl
    | cons c s =>
      have hc : c ≠ slash := of_decide_eq_false (hhead (List.cons_ne_nil c s))
      -- the piece at the head, and the rest from its slash on
      have hsplit := List.takeWhile_append_dropWhile (p := fun c => decide (c ≠ slash)) (l := c :: s)
      have hall := List.all_takeWhile (p := fun c => decide (c ≠ slash)) (l := c :: s)
      have hend := fun hne =>
        List.head_dropWhile_not (fun c => decide (c ≠ slash)) (l := c :: s) hne
      change List.take DIRSIZ (List.takeWhile _ (c :: s)) :: elemsFrom n (List.dropWhile _
        (List.dropWhile _ (c :: s))) = _
      have hne : (c :: s).takeWhile (· ≠ slash) ≠ [] := by
        simp [hc]
      generalize (c :: s).takeWhile (· ≠ slash) = w at *
      generalize (c :: s).dropWhile (· ≠ slash) = t at *
      have hw : slash ∉ w := fun hmem =>
        of_decide_eq_true (List.all_eq_true.mp hall slash hmem) rfl
      have ht : t = [] ∨ ∃ t', t = slash :: t' := by
        cases t with
        | nil => exact .inl rfl
        | cons x t =>
          have hx := hend (List.cons_ne_nil x t)
          exact .inr ⟨t, congrArg (· :: t) (not_not.mp (of_decide_eq_false hx))⟩
      have hpos := List.length_pos_of_ne_nil hne
      have hrest := (List.dropWhile_suffix (fun c => decide (c = slash)) (l := t)).length_le
      rw [← hsplit, List.length_append] at hle
      rw [← hsplit, pieces_append hne hw ht, List.map_cons, ih (by omega), pieces_dropWhile]

theorem elems_eq (path : List Nat) :
    elems path = (pieces (path.takeWhile (· ≠ 0))).map (List.take DIRSIZ) :=
  elemsFrom_eq (List.takeWhile_prefix _).length_le

/-! ## Where a path leads -/

namespace State

variable (fs : State)

/-- Where the loop of `namex` comes to: the inode and the last element. -/
def walk (parent : Bool) : List (List Nat) → Nat → Option (Nat × List Nat)
  | [], i => if parent then none else some (i, [])
  | name :: rest, i =>
    if (fs.din i).type ≠ .dir then none
    else if parent = true ∧ rest = [] then some (i, name)
    else
      match fs.lookup i name with
      | none => none
      | some (next, _) => walk parent rest next

/-- Where a path starts. -/
def origin (p : Slot) (path : List Nat) : Option Nat :=
  if path.headD 0 = slash then some ROOTINO else (fs.task p).cwd

/-- What `namex` answers. -/
def resolve (p : Slot) (path : List Nat) (parent : Bool) : Option (Nat × List Nat) :=
  (fs.origin p path).bind (fs.walk parent (elems path))

end State

/-- **No path comes to a free inode**, unless `ilock` may panic. -/
structure Firm (E : Panic → Prop) (fs : State) : Prop where
  root : (fs.din ROOTINO).type = .none → E .ilockType
  cwd : ∀ p d, (fs.task p).cwd = some d → (fs.din d).type = .none → E .ilockType
  entry : ∀ d name i off, (fs.din d).type = .dir → fs.lookup d name = some (i, off) →
    (fs.din i).type = .none → E .ilockType

variable {E : Panic → Prop} {X Y : List Nat} {fs fs' fs₁ : State} {i j d : Nat} {name path : List Nat}
  {names : List (List Nat)} {parent : Bool} {p : Slot}

theorem Firm.of_allowed (h : E .ilockType) (fs : State) : Firm E fs :=
  ⟨fun _ => h, fun _ _ _ _ => h, fun _ _ _ _ _ _ _ => h⟩

theorem Alike.resolve (h : Alike fs fs') : fs'.resolve = fs.resolve := by
  have hwalk : ∀ parent, fs'.walk parent = fs.walk parent := fun parent => by
    funext names i
    induction names generalizing i with
    | nil => rfl
    | cons name names ih =>
      rw [State.walk, State.walk, h.type, h.lookup]
      simp only [ih]
  funext p path parent
  rw [State.resolve, State.resolve, State.origin, State.origin, h.task, hwalk]

theorem Firm.alike (hf : Firm E fs) (h : Alike fs fs') : Firm E fs' where
  root := by
    rw [h.type]
    exact hf.root
  cwd p d := by
    rw [h.task, h.type]
    exact hf.cwd p d
  entry d name i off := by
    rw [h.type, h.type, h.lookup]
    exact hf.entry d name i off

/-- A parent is a directory. -/
theorem type_of_walk (h : fs.walk true names i = some (d, name)) : (fs.din d).type = .dir := by
  induction names generalizing i with
  | nil => exact nomatch h
  | cons name' names ih =>
    rw [State.walk] at h
    split at h
    · exact nomatch h
    · rename_i ht
      split at h
      · obtain ⟨rfl, -⟩ := Prod.mk.inj (Option.some.inj h)
        exact not_not.mp ht
      · split at h
        · exact nomatch h
        · exact ih h

/-- What a path names is there. -/
theorem Firm.of_walk (hf : Firm E fs) (hi : (fs.din i).type = .none → E .ilockType)
    (h : fs.walk parent names i = some (d, name)) : (fs.din d).type = .none → E .ilockType := by
  induction names generalizing i with
  | nil =>
    rw [State.walk] at h
    split at h
    · exact nomatch h
    · obtain ⟨rfl, -⟩ := Prod.mk.inj (Option.some.inj h)
      exact hi
  | cons name' names ih =>
    rw [State.walk] at h
    split at h
    · exact nomatch h
    · rename_i ht
      split at h
      · obtain ⟨rfl, -⟩ := Prod.mk.inj (Option.some.inj h)
        exact hi
      · split at h
        · exact nomatch h
        · rename_i hl
          exact ih (hf.entry _ _ _ _ (not_not.mp ht) hl) h

/-- **Two entries of the cache are left**, unless `iget` may panic: a lookup holds two references. -/
def Room (E : Panic → Prop) (X : List Nat) (fs : State) : Prop :=
  E .iget ∨ fs.Counted ∧ (X ++ fs.fileRefs).toFinset.card + 1 < NINODE

/-- Inodes are referenced when something refers to them. -/
theorem Sound.ref_pos_iff (h : Sound X fs) : 0 < (fs.inode i).ref ↔ i ∈ X ++ fs.fileRefs := by
  rw [← (h.good i).acct, ← List.count_append, List.count_pos_iff]

theorem Room.lt (hroom : Room E X fs) (hidle : Idle fs fs₁) (h₁ : Sound Y fs₁)
    (hY : ∀ j ∈ Y, j = i ∨ j ∈ X) : E .iget ∨ fs₁.cached < NINODE := by
  refine hroom.imp_right fun ⟨hc, hlt⟩ => ?_
  obtain ⟨s, hs, hle⟩ := hidle.counted hc
  have hsub : s ⊆ insert i (X ++ fs.fileRefs).toFinset := fun j hj => by
    have hj := h₁.ref_pos_iff.mp ((hs j).mp hj)
    rw [hidle.fileRefs] at hj
    have := hY j
    simp only [Finset.mem_insert, List.mem_toFinset, List.mem_append] at hj ⊢
    tauto
  have := Finset.card_le_card hsub
  have := Finset.card_insert_le i (X ++ fs.fileRefs).toFinset
  omega

/-- **The loop of `namex`.** -/
theorem namexFrom_spec (hroom : Room E X fs) (hf : Firm E fs) (h : Sound X fs) (hidle : Idle fs fs₁)
    (h₁ : Sound (i :: X) fs₁) (hi : (fs.din i).type = .none → E .ilockType) :
    Meets (namexFrom parent names i fs₁) E fun r fs' =>
      r = fs.walk parent names i ∧ Sound ((r.map Prod.fst).toList ++ X) fs' ∧ Idle fs fs'
        ∧ Kept X fs₁ fs' := by
  have hkeep : ∀ {fs fs'}, Kept (i :: X) fs fs' → Kept X fs fs' := fun hk =>
    hk.mono fun _ => List.mem_cons_of_mem _
  induction names generalizing i fs₁ with
  | nil =>
    rw [namexFrom, State.walk]
    split
    · exact (iput_back h hidle h₁ fun _ => le_rfl).bind fun _ _ hfs => ⟨rfl, hfs⟩
    · exact ⟨rfl, h₁, hidle, .refl X fs₁⟩
  | cons name names ih =>
    rw [namexFrom, State.walk]
    have hpos := h₁.ref_pos List.mem_cons_self
    refine (ilock_held (fun hlt => absurd hpos (by omega)) (hidle.din ▸ hi) h₁).bind fun _ fs₂ hl => .get ?_
    obtain ⟨h₂, hidle₂, hk₂, hv₂⟩ := hl
    have hidle₂ := hidle.trans hidle₂
    have hdin : fs₂.mem i = fs.din i := by rw [h₂.mem_eq hv₂, hidle₂.din]
    rw [hdin]
    split
    · refine (iput_back h hidle₂ h₂ fun _ => le_rfl).bind fun _ _ hfs => ?_
      exact ⟨rfl, hfs.1, hfs.2.1, (hkeep hk₂).trans hfs.2.2⟩
    · rename_i ht
      split
      · exact ⟨rfl, h₂, hidle₂, hkeep hk₂⟩
      · have hlt := hroom.lt hidle₂ h₂ fun _ => List.mem_cons.mp
        refine (dirlookup_held hlt h₂ hv₂ (hidle₂.din ▸ (absurd · ht))).bind fun r fs₃ hr => ?_
        obtain ⟨-, rfl, htook⟩ := hr
        rw [hidle₂.alike.lookup] at htook ⊢
        have hidle₃ := hidle₂.trans htook.idle
        have hk₃ := hk₂.trans htook.kept
        cases hl : fs.lookup i name with
        | none =>
          rw [hl] at htook
          refine (iput_back h hidle₃ htook.sound fun _ => le_rfl).bind fun _ _ hfs => ?_
          exact ⟨rfl, hfs.1, hfs.2.1, (hkeep hk₃).trans hfs.2.2⟩
        | some found =>
          obtain ⟨next, off⟩ := found
          rw [hl] at htook
          have hswap : Sound (i :: next :: X) fs₃ := htook.sound.perm (.swap i next X)
          have hle : ∀ j, X.count j ≤ (next :: X).count j := fun j => List.count_le_count_cons
          refine (iput_back h hidle₃ hswap hle).bind fun _ fs₄ hfs => ?_
          have hk₄ := (hkeep hk₃).trans (hfs.2.2.mono fun _ => List.mem_cons_of_mem _)
          refine (ih hfs.2.1 hfs.1 (hf.entry _ _ _ _ (not_not.mp ht) hl) ?_).imp fun r fs' hr => ?_
          · exact fun hk => hk.mono fun _ => List.mem_cons_of_mem _
          · exact ⟨hr.1, hr.2.1, hr.2.2.1, hk₄.trans hr.2.2.2⟩

/-- **`namex`** answers what the directories say. -/
theorem namex_held (hroom : Room E X fs) (hcwd : (fs.task p).cwd = none → E .nullCwd) (hf : Firm E fs)
    (h : Sound X fs) : Meets (namex p path parent fs) E fun r fs' =>
      r = fs.resolve p path parent ∧ Took X (r.map Prod.fst) fs fs' := by
  rw [namex, State.resolve, State.origin]
  refine .get ?_
  split
  · have hlt := hroom.lt (i := ROOTINO) (.refl fs) h fun _ => .inr
    refine (iget_spec hlt h).bind fun _ fs₁ hfs => ?_
    refine (namexFrom_spec hroom hf h hfs.2.1 hfs.1 hf.root).imp fun r fs' hr => ?_
    exact ⟨hr.1, hr.2.1, hr.2.2.1, hfs.2.2.trans hr.2.2.2⟩
  · cases hc : (fs.task p).cwd with
    | none => exact hcwd hc
    | some d =>
      refine (idup_spec h).bind fun _ fs₁ hfs => ?_
      refine (namexFrom_spec hroom hf h hfs.2.1 hfs.1 (hf.cwd p d hc)).imp fun r fs' hr => ?_
      exact ⟨hr.1, hr.2.1, hr.2.2.1, hfs.2.2.trans hr.2.2.2⟩

theorem namex_spec (hE : Tame E) (hf : Firm E fs) (h : Sound X fs) :
    Meets (namex p path parent fs) E fun r fs' =>
      r = fs.resolve p path parent ∧ Took X (r.map Prod.fst) fs fs' :=
  namex_held (.inl (hE _ (by decide) (by decide))) (fun _ => hE _ (by decide) (by decide)) hf h

/-- A path names an inode that is there. -/
theorem Firm.of_resolve (hf : Firm E fs) (h : fs.resolve p path parent = some (d, name)) :
    (fs.din d).type = .none → E .ilockType := by
  obtain ⟨i, hi, h⟩ := Option.bind_eq_some_iff.mp h
  refine hf.of_walk ?_ h
  rw [State.origin] at hi
  split at hi
  · obtain rfl := Option.some.inj hi
    exact hf.root
  · exact hf.cwd p i hi

theorem type_of_resolve (h : fs.resolve p path true = some (d, name)) : (fs.din d).type = .dir := by
  obtain ⟨i, -, h⟩ := Option.bind_eq_some_iff.mp h
  exact type_of_walk h

/-- **`namei`**. -/
theorem namei_held (hroom : Room E X fs) (hcwd : (fs.task p).cwd = none → E .nullCwd) (hf : Firm E fs)
    (h : Sound X fs) : Meets (namei p path fs) E fun r fs' =>
      r = (fs.resolve p path false).map Prod.fst ∧ Took X r fs fs' := by
  rw [namei]
  refine (namex_held hroom hcwd hf h).bind fun r fs' hr => ?_
  exact ⟨congrArg (Option.map Prod.fst) hr.1, hr.2⟩

section Lock

variable {α : Type} {Q : α → State → Prop} (hE : Tame E) (hf : Firm E fs) (h : Sound X fs)
include hE hf h

/-- **A path, and the lock of what it leads to.** -/
theorem namex_lock {k : Option (Nat × List Nat) → M α} {f : Nat → List Nat → M α}
    (hk : ∀ ip name, k (some (ip, name)) = ilock ip >>= fun _ => f ip name)
    (hnone : ∀ fs₁, fs.resolve p path parent = none → Sound X fs₁ → Kept X fs fs₁ → Idle fs fs₁ →
      Meets (k none fs₁) E Q)
    (hsome : ∀ ip name fs₁, fs.resolve p path parent = some (ip, name) → Sound (ip :: X) fs₁ →
      Kept X fs fs₁ → Idle fs fs₁ → (fs₁.inode ip).valid = true → Meets (f ip name fs₁) E Q) :
    Meets ((namex p path parent >>= k) fs) E Q := by
  refine (namex_spec hE hf h).bind fun r fs₁ hr => ?_
  obtain ⟨rfl, htook⟩ := hr
  cases hres : fs.resolve p path parent with
  | none =>
    rw [hres] at htook
    exact hnone fs₁ hres htook.sound htook.kept htook.idle
  | some found =>
    obtain ⟨ip, name⟩ := found
    rw [hres] at htook
    rw [hk]
    refine (ilock_spec hE (htook.idle.din ▸ hf.of_resolve hres) htook.sound).bind fun _ fs₂ hl => ?_
    exact hsome ip name fs₂ hres hl.1 (htook.kept.trans (hl.2.2.1.mono fun _ => List.mem_cons_of_mem _))
      (htook.idle.trans hl.2.1) hl.2.2.2

theorem namei_lock {k : Option Nat → M α} {f : Nat → M α}
    (hk : ∀ ip, k (some ip) = ilock ip >>= fun _ => f ip)
    (hnone : ∀ fs₁, fs.resolve p path false = none → Sound X fs₁ → Idle fs fs₁ → Meets (k none fs₁) E Q)
    (hsome : ∀ ip name fs₁, fs.resolve p path false = some (ip, name) → Sound (ip :: X) fs₁ →
      Idle fs fs₁ → (fs₁.inode ip).valid = true → Meets (f ip fs₁) E Q) :
    Meets ((namei p path >>= k) fs) E Q := by
  rw [namei, bind_assoc]
  exact namex_lock hE hf h (f := fun ip _ => f ip) (fun ip _ => hk ip)
    (fun fs₁ hres h₁ _ => hnone fs₁ hres h₁) fun ip name fs₁ hres h₁ _ => hsome ip name fs₁ hres h₁

end Lock

end Xv6.Fs
