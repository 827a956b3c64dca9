import Mathlib.Data.List.Pairwise
import Mathlib.Data.List.Perm.Lattice

/-!
# Machinery/Ledger — an allocator's book-keeping, one owner at a time

A heap names its cells and keeps a list of the names nobody holds.  An operation on behalf of an
owner holding `A` ends with that owner holding `B`, and

    free ++ A  ~  free' ++ B          every other cell keeps its contents

is all a bystander has to know about it: `Heap.Moves` is that pair of facts.  It composes
(`Moves.trans`), it is local (`Moves.frame_nodup`, `Moves.cell_of_bystander`), and allocation,
release and an in-place write are its three atoms.
-/

/-- Cells named by `F` with contents in `C`; `free` lists the names nobody holds. -/
structure Heap (F C : Type*) where
  cell : F → C
  free : List F

namespace Heap

open Function

variable {F C : Type*} {h h₁ h₂ h₃ : Heap F C} {A B D S : List F} {f : F}

/-- **An operation with footprint**: the owner of `A` ends up with `B`, names are neither lost nor
invented, and no cell outside the free names and `A` is touched. -/
structure Moves (h₁ : Heap F C) (A : List F) (h₂ : Heap F C) (B : List F) : Prop where
  perm : (h₁.free ++ A).Perm (h₂.free ++ B)
  frame : ∀ f, f ∉ h₁.free → f ∉ A → h₂.cell f = h₁.cell f

namespace Moves

theorem refl (h : Heap F C) (A : List F) : Moves h A h A := ⟨List.Perm.refl _, fun _ _ _ => rfl⟩

/-- The names an operation may end with are the names it may start from. -/
theorem mem_iff (m : Moves h₁ A h₂ B) {f : F} : f ∈ h₂.free ∨ f ∈ B ↔ f ∈ h₁.free ∨ f ∈ A := by
  rw [← List.mem_append, ← List.mem_append]
  exact m.perm.symm.mem_iff

/-- **Operations of one owner compose.** -/
theorem trans (m : Moves h₁ A h₂ B) (n : Moves h₂ B h₃ D) : Moves h₁ A h₃ D where
  perm := m.perm.trans n.perm
  frame f hf hA := by
    have hout : ¬ (f ∈ h₂.free ∨ f ∈ B) := fun hB => (m.mem_iff.mp hB).elim hf hA
    rw [n.frame f (fun hB => hout (.inl hB)) (fun hB => hout (.inr hB)), m.frame f hf hA]

/-- The holdings matter only up to order. -/
theorem congr {A' B' : List F} (m : Moves h₁ A h₂ B) (hA : A.Perm A') (hB : B.Perm B') :
    Moves h₁ A' h₂ B' where
  perm := ((hA.append_left _).symm.trans m.perm).trans (hB.append_left _)
  frame f hf hA' := m.frame f hf fun h => hA' (hA.mem_iff.mp h)

/-- Holdings the operation does not use may be listed along. -/
theorem extend (m : Moves h₁ A h₂ B) (S : List F) : Moves h₁ (A ++ S) h₂ (B ++ S) where
  perm := by
    rw [← List.append_assoc, ← List.append_assoc]
    exact m.perm.append_right S
  frame f hf hA := m.frame f hf fun h => hA (List.mem_append_left _ h)

/-- The same, with the spectators listed first. -/
theorem extend_left (m : Moves h₁ A h₂ B) (S : List F) : Moves h₁ (S ++ A) h₂ (S ++ B) :=
  (m.extend S).congr List.perm_append_comm List.perm_append_comm

theorem nodup (m : Moves h₁ A h₂ B) (hn : (h₁.free ++ A).Nodup) : (h₂.free ++ B).Nodup :=
  m.perm.nodup_iff.mp hn

/-- **Disjointness from every bystander is kept.** -/
theorem frame_nodup (m : Moves h₁ A h₂ B) (hn : (h₁.free ++ (A ++ S)).Nodup) :
    (h₂.free ++ (B ++ S)).Nodup :=
  (m.extend S).nodup hn

/-- **A bystander's cells are untouched.** -/
theorem cell_of_bystander (m : Moves h₁ A h₂ B) (hn : (h₁.free ++ (A ++ S)).Nodup)
    (hf : f ∈ S) : h₂.cell f = h₁.cell f := by
  rw [← List.append_assoc] at hn
  have hd := List.disjoint_of_nodup_append hn
  exact m.frame f (fun h => hd (List.mem_append_left _ h) hf)
    (fun h => hd (List.mem_append_right _ h) hf)

/-- An operation that starts and ends with the same holdings gives back what it took. -/
theorem perm_free (m : Moves h₁ A h₂ A) : h₁.free.Perm h₂.free :=
  (List.perm_append_right_iff A).mp m.perm

theorem length (m : Moves h₁ A h₂ B) :
    h₁.free.length + A.length = h₂.free.length + B.length := by
  have := m.perm.length_eq
  rwa [List.length_append, List.length_append] at this

end Moves

/-! ## The three atoms -/

/-- **Allocation** moves the head of the free list to the owner. -/
theorem moves_pop {g : List F} (h : Heap F C) (hfree : h.free = f :: g) :
    Moves h [] { h with free := g } [f] where
  perm := by
    rw [hfree, List.append_nil]
    exact (List.perm_append_singleton f g).symm
  frame _ _ _ := rfl

/-- **Release** moves a held name to the free list, whatever is written there on the way. -/
theorem moves_push [DecidableEq F] (h : Heap F C) (f : F) (c : C) :
    Moves h [f] { cell := update h.cell f c, free := f :: h.free } [] where
  perm := by
    rw [List.append_nil]
    exact List.perm_append_comm
  frame g _ hg := update_of_ne (by simpa using hg) _ _

/-- **A write** stays inside the holdings. -/
theorem moves_write [DecidableEq F] (h : Heap F C) {A : List F} (hf : f ∈ A) (c : C) :
    Moves h A { h with cell := update h.cell f c } A where
  perm := List.Perm.refl _
  frame g _ hg := update_of_ne (fun he => hg (by rwa [he])) _ _

end Heap

/-! ## Lists read off a table

Holdings are listed by walking a table.  Changing the table at one place changes the list by the
one name that place contributes. -/

namespace Ledger

variable {α β : Type*} [DecidableEq α]

/-- Filling one empty place of a table adds its entry to the list. -/
theorem filterMap_perm_cons {l : List α} {f g : α → Option β} {a : α} {b : β} (hl : l.Nodup)
    (ha : a ∈ l) (hf : f a = none) (hg : g a = some b) (h : ∀ x ∈ l, x ≠ a → g x = f x) :
    (l.filterMap g).Perm (b :: l.filterMap f) := by
  have hrest : (l.erase a).filterMap g = (l.erase a).filterMap f :=
    List.filterMap_congr fun x hx => h x (List.mem_of_mem_erase hx) (hl.mem_erase_iff.mp hx).1
  have hgp := (List.perm_cons_erase ha).filterMap g
  have hfp := (List.perm_cons_erase ha).filterMap f
  rw [List.filterMap_cons_some hg, hrest] at hgp
  rw [List.filterMap_cons_none hf] at hfp
  exact hgp.trans (hfp.symm.cons b)

/-- Changing one place of a table of lists trades its old entry for its new one. -/
theorem flatMap_perm_update {l : List α} {f g : α → List β} {a : α} (hl : l.Nodup) (ha : a ∈ l)
    (h : ∀ x ∈ l, x ≠ a → g x = f x) :
    (f a ++ l.flatMap g).Perm (g a ++ l.flatMap f) := by
  have hrest : (l.erase a).flatMap g = (l.erase a).flatMap f :=
    List.flatMap_congr fun x hx => h x (List.mem_of_mem_erase hx) (hl.mem_erase_iff.mp hx).1
  have hgp := (List.perm_cons_erase ha).flatMap_right g
  have hfp := (List.perm_cons_erase ha).flatMap_right f
  rw [List.flatMap_cons] at hgp hfp
  rw [hrest] at hgp
  refine (hgp.append_left _).trans (List.Perm.trans ?_ (hfp.symm.append_left _))
  rw [← List.append_assoc, ← List.append_assoc]
  exact List.perm_append_comm.append_right _

/-- The same for a table of at most one entry a place. -/
theorem filterMap_perm_update {l : List α} {f g : α → Option β} {a : α} (hl : l.Nodup) (ha : a ∈ l)
    (h : ∀ x ∈ l, x ≠ a → g x = f x) :
    ((f a).toList ++ l.filterMap g).Perm ((g a).toList ++ l.filterMap f) := by
  rw [List.filterMap_eq_flatMap_toList, List.filterMap_eq_flatMap_toList]
  exact flatMap_perm_update hl ha fun x hx hne => congrArg Option.toList (h x hx hne)

/-- One owner's trade with the free list, in the list of everything. -/
theorem perm_trade {A B S T free free' M : List α} (hall : (A ++ T).Perm (B ++ S))
    (hm : (free ++ A).Perm (free' ++ B)) : (free' ++ (M ++ T)).Perm (free ++ (M ++ S)) := by
  rw [List.perm_iff_count] at hall hm ⊢
  intro a
  have hall := hall a
  have hm := hm a
  simp only [List.count_append] at hall hm ⊢
  omega

/-- A name listed once is contributed by one place. -/
theorem eq_of_filterMap_nodup {l : List α} {f : α → Option β} {a a' : α} {b : β}
    (hn : (l.filterMap f).Nodup) (ha : a ∈ l) (ha' : a' ∈ l) (hb : f a = some b)
    (hb' : f a' = some b) : a = a' := by
  by_contra hne
  have : Std.Symm fun x y => ∀ u, f x = some u → ∀ v, f y = some v → u ≠ v :=
    ⟨fun x y h u hu v hv huv => h v hv u hu huv.symm⟩
  exact (List.pairwise_filterMap.mp hn).forall ha ha' hne b hb b hb' rfl

/-- …and a name in one of the lists of a table without repetition is in that one alone. -/
theorem eq_of_flatMap_nodup {l : List α} {f : α → List β} {a a' : α} {b : β}
    (hn : (l.flatMap f).Nodup) (ha : a ∈ l) (ha' : a' ∈ l) (hb : b ∈ f a) (hb' : b ∈ f a') : a = a' := by
  by_contra hne
  have : Std.Symm (Function.onFun List.Disjoint f) := ⟨fun _ _ h => h.symm⟩
  exact (List.nodup_flatMap.mp hn).2.forall ha ha' hne hb hb'

end Ledger
