import Mathlib.Data.UInt

/-!
# Heap/Header — the headers of the blocks, in bytes

A header is eight bytes of memory, a pointer and a size (`union header`, umalloc.c:11):

    p          p + 4        p + 8
    │ s.ptr    │ s.size     │ what the caller gets …

Both words are stored least byte first.  The allocator reads and writes headers only, and two headers
either are the same or lie apart.
-/

namespace Xv6.Heap

/-- The memory of a process, byte by byte. -/
abbrev Bytes := Nat → UInt8

/-! ## Words -/

/-- The word at an address… -/
def load (m : Bytes) (a : Nat) : Nat :=
  (m a).toNat + 256 * (m (a + 1)).toNat + 65536 * (m (a + 2)).toNat + 16777216 * (m (a + 3)).toNat

/-- …and a word put there. -/
def store (m : Bytes) (a w : Nat) : Bytes := fun x =>
  if a ≤ x ∧ x < a + 4 then UInt8.ofNat (w / 256 ^ (x - a)) else m x

variable {m m' m'' : Bytes} {a p q v w x : Nat}

theorem load_lt : load m a < 2 ^ 32 := by
  have h₀ := (m a).toNat_lt
  have h₁ := (m (a + 1)).toNat_lt
  have h₂ := (m (a + 2)).toNat_lt
  have h₃ := (m (a + 3)).toNat_lt
  unfold load
  omega

/-- A word is read back… -/
theorem load_store (hw : w < 2 ^ 32) : load (store m a w) a = w := by
  have h₀ : store m a w a = UInt8.ofNat (w / 256 ^ 0) := by simp [store]
  have h₁ : store m a w (a + 1) = UInt8.ofNat (w / 256 ^ 1) := by simp [store]
  have h₂ : store m a w (a + 2) = UInt8.ofNat (w / 256 ^ 2) := by simp [store]
  have h₃ : store m a w (a + 3) = UInt8.ofNat (w / 256 ^ 3) := by simp [store]
  rw [load, h₀, h₁, h₂, h₃]
  simp only [UInt8.toNat_ofNat']
  omega

/-- …and a word is what its four bytes are. -/
theorem load_congr (h : ∀ k < 4, m' (a + k) = m (a + k)) : load m' a = load m a := by
  have h₀ : m' a = m a := h 0 (by decide)
  rw [load, load, h₀, h 1 (by decide), h 2 (by decide), h 3 (by decide)]

/-! ## Headers -/

/-- `p->s.ptr`. -/
def ptr (m : Bytes) (p : Nat) : Nat := load m p

/-- `p->s.size`. -/
def size (m : Bytes) (p : Nat) : Nat := load m (p + 4)

/-- `p->s.ptr = v`. -/
def setPtr (m : Bytes) (p v : Nat) : Bytes := store m p v

/-- `p->s.size = v`. -/
def setSize (m : Bytes) (p v : Nat) : Bytes := store m (p + 4) v

theorem ptr_lt : ptr m p < 2 ^ 32 := load_lt

theorem size_lt : size m p < 2 ^ 32 := load_lt

theorem ptr_setPtr (hv : v < 2 ^ 32) : ptr (setPtr m p v) p = v := load_store hv

theorem size_setSize (hv : v < 2 ^ 32) : size (setSize m p v) p = v := load_store hv

theorem ptr_setSize : ptr (setSize m p v) p = ptr m p :=
  load_congr fun _ _ => if_neg (by omega)

theorem size_setPtr : size (setPtr m p v) p = size m p :=
  load_congr fun _ _ => if_neg (by omega)

/-! ## One header written -/

/-- Two headers that share no byte. -/
def Apart (p q : Nat) : Prop := p + 8 ≤ q ∨ q + 8 ≤ p

theorem Apart.symm (h : Apart p q) : Apart q p := Or.symm h

theorem Apart.ne (h : Apart p q) : p ≠ q := by
  rcases h with h | h <;> omega

/-- **Nothing but the header at `p` is written.** -/
def Writes (p : Nat) (m m' : Bytes) : Prop := ∀ x, x < p ∨ p + 8 ≤ x → m' x = m x

theorem writes_setPtr : Writes p m (setPtr m p v) := fun _ hx => if_neg (by omega)

theorem writes_setSize : Writes p m (setSize m p v) := fun _ hx => if_neg (by omega)

namespace Writes

theorem trans (h : Writes p m m') (h' : Writes p m' m'') : Writes p m m'' :=
  fun x hx => (h' x hx).trans (h x hx)

theorem ptr (h : Writes p m m') (hq : Apart p q) : ptr m' q = ptr m q :=
  load_congr fun k _ => h (q + k) (by rcases hq with hq | hq <;> omega)

theorem size (h : Writes p m m') (hq : Apart p q) : size m' q = size m q :=
  load_congr fun k _ => h (q + 4 + k) (by rcases hq with hq | hq <;> omega)

end Writes

end Xv6.Heap
