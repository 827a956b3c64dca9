import Xv6Ipc.Machinery.Ledger
import Xv6Ipc.Memory.Layout

/-!
# Memory/Kalloc — physical memory and its free list

Physical memory is one cell of 1024 words per frame, with the list `kalloc` hands frames out of.
A null pointer is the number `0`: no frame `kfree` accepts is frame `0`.

`Mem.vmfreed` is a history variable.  No code reads it: `freevm` records there which page
directories it was given, newest first.
-/

namespace Xv6

open Function

/-- The ways the kernel stops: the `panic` calls of the modelled functions, plus the two accesses C
leaves undefined. -/
inductive Panic where
  | kfree
  | remap
  | physTop
  | inituvm
  | userinit
  | freevm
  | clearpteu
  | loaduvm
  | copyuvm
  | switchuvm
  | initExiting
  | filedup
  | fileclose
  | nullDeref
  | sharedIndex
  deriving DecidableEq, Repr

/-- Physical memory. -/
structure Mem extends Heap Nat (Nat → Nat) where
  vmfreed : List Nat

namespace Mem

/-- Store a word. -/
def store (m : Mem) (f i w : Nat) : Mem :=
  { m with cell := update m.cell f (update (m.cell f) i w) }

/-- Overwrite a whole frame. -/
def fill (m : Mem) (f : Nat) (c : Nat → Nat) : Mem :=
  { m with cell := update m.cell f c }

/-- An operation with footprint on physical memory. -/
abbrev Moves (m : Mem) (A : List Nat) (m' : Mem) (B : List Nat) : Prop :=
  m.toHeap.Moves A m'.toHeap B

theorem store_cell_of_ne (m : Mem) {f g : Nat} (i w : Nat) (h : g ≠ f) :
    (m.store f i w).cell g = m.cell g := update_of_ne h _ _

@[simp] theorem store_cell_self (m : Mem) (f i w : Nat) :
    (m.store f i w).cell f = update (m.cell f) i w := update_self _ _ _

theorem fill_cell_of_ne (m : Mem) {f g : Nat} (c : Nat → Nat) (h : g ≠ f) :
    (m.fill f c).cell g = m.cell g := update_of_ne h _ _

@[simp] theorem fill_cell_self (m : Mem) (f : Nat) (c : Nat → Nat) : (m.fill f c).cell f = c :=
  update_self _ _ _

theorem moves_store (m : Mem) {A : List Nat} {f : Nat} (h : f ∈ A) (i w : Nat) :
    m.Moves A (m.store f i w) A := m.toHeap.moves_write h _

theorem moves_fill (m : Mem) {A : List Nat} {f : Nat} (h : f ∈ A) (c : Nat → Nat) :
    m.Moves A (m.fill f c) A := m.toHeap.moves_write h _

end Mem

/-! ## `kalloc.c` -/

/-- `kalloc`: the head of the free list, or null. -/
def kalloc (m : Mem) : Option Nat × Mem :=
  match m.free with
  | [] => (none, m)
  | f :: fs => (some f, { m with free := fs })

/-- What `kfree` leaves in a page: junk, over whose first word the list link is written. -/
def junk (next : Option Nat) : Nat → Nat :=
  update (fun _ => 0x01010101) 0 (next.elim 0 fun f => KERNBASE + 4096 * f)

/-- `kfree` of a frame. -/
def kfree (L : Linker) (m : Mem) (f : Nat) : Except Panic Mem :=
  if L.Frame f then
    .ok { m with cell := update m.cell f (junk m.free.head?), free := f :: m.free }
  else .error .kfree

/-- **`kalloc` either finds nothing or moves one frame to the caller.** -/
theorem kalloc_cases (m : Mem) :
    (m.free = [] ∧ kalloc m = (none, m)) ∨
      ∃ f fs, m.free = f :: fs ∧ kalloc m = (some f, { m with free := fs }) := by
  rw [kalloc]
  cases h : m.free with
  | nil => exact .inl ⟨rfl, rfl⟩
  | cons f fs => exact .inr ⟨f, fs, rfl, rfl⟩

/-- A successful `kalloc`, as a move. -/
theorem moves_kalloc {m m' : Mem} {f : Nat} (h : kalloc m = (some f, m')) :
    m.Moves [] m' [f] ∧ f ∈ m.free ∧ m'.cell = m.cell ∧ m'.vmfreed = m.vmfreed := by
  rcases kalloc_cases m with ⟨-, hk⟩ | ⟨g, fs, hfree, hk⟩
  · rw [hk] at h
    simp at h
  · rw [hk] at h
    obtain ⟨rfl, rfl⟩ : g = f ∧ { m with free := fs } = m' := by simpa using h
    exact ⟨m.toHeap.moves_pop hfree, by simp [hfree], rfl, rfl⟩

/-- **`kfree` of a frame in range succeeds.** -/
theorem kfree_ok {L : Linker} {m : Mem} {f : Nat} (h : L.Frame f) :
    kfree L m f = .ok
      { m with cell := update m.cell f (junk m.free.head?), free := f :: m.free } :=
  if_pos h

/-- A `kfree` that returns, as a move. -/
theorem moves_kfree {L : Linker} {m m' : Mem} {f : Nat} (h : kfree L m f = .ok m') :
    L.Frame f ∧ m.Moves [f] m' [] ∧ m'.free = f :: m.free ∧ m'.vmfreed = m.vmfreed := by
  rw [kfree] at h
  split at h
  · rename_i hf
    obtain rfl := Except.ok.inj h
    exact ⟨hf, m.toHeap.moves_push f _, rfl, rfl⟩
  · simp at h

theorem kfree_cell_of_ne {L : Linker} {m m' : Mem} {f g : Nat} (h : kfree L m f = .ok m')
    (hg : g ≠ f) : m'.cell g = m.cell g := by
  obtain ⟨-, hm, -, -⟩ := moves_kfree h
  by_cases hfree : g ∈ m.free
  · rw [kfree] at h
    split at h
    · obtain rfl := Except.ok.inj h
      exact update_of_ne hg _ _
    · simp at h
  · exact hm.frame g hfree (by simpa using hg)

/-- **`kfree` of a frame in range**, all at once. -/
theorem kfree_spec {L : Linker} {f : Nat} (m : Mem) (h : L.Frame f) :
    ∃ m', kfree L m f = .ok m' ∧ m.Moves [f] m' [] ∧ (∀ g, g ≠ f → m'.cell g = m.cell g)
      ∧ m'.vmfreed = m.vmfreed := by
  have hk := kfree_ok (m := m) h
  obtain ⟨-, hmove, -, hvm⟩ := moves_kfree hk
  exact ⟨_, hk, hmove, fun g => kfree_cell_of_ne hk, hvm⟩

end Xv6
