import Mathlib.Data.Nat.Bitwise

/-!
# Memory/Layout — addresses, page numbers and page-table entries

Machine words are natural numbers, cut down to 32 bits wherever the C arithmetic wraps.  A frame is
a physical page number, a page a virtual one:

    address = 4096 · page + offset          page = 1024 · PDX + PTX

so pages below `0x40000` lie below `SHAREBASE` and pages below `0x80000` below `KERNBASE`.
-/

namespace Xv6

/-! ## `memlayout.h` -/

def EXTMEM : Nat := 0x100000
def PHYSTOP : Nat := 0xE000000
def DEVSPACE : Nat := 0xFE000000
def KERNBASE : Nat := 0x80000000
def SHAREBASE : Nat := 0x40000000
def KERNLINK : Nat := KERNBASE + EXTMEM

/-- What the linker decides: where the kernel's data starts and where the kernel ends, with what
`kernel.ld` promises about them. -/
structure Linker where
  data : Nat
  kend : Nat
  data_aligned : data % 4096 = 0
  kernlink_lt_data : KERNLINK < data
  data_le_kend : data ≤ kend
  kend_lt : kend < KERNBASE + PHYSTOP

/-- A frame `kfree` accepts: at or above the kernel's end and below `PHYSTOP`. -/
def Linker.Frame (L : Linker) (f : Nat) : Prop :=
  L.kend ≤ KERNBASE + 4096 * f ∧ 4096 * f < PHYSTOP

instance (L : Linker) (f : Nat) : Decidable (L.Frame f) :=
  inferInstanceAs (Decidable (_ ∧ _))

/-- A C expression of type `uint`: the value of its integer arithmetic, in 32 bits. -/
def u32 (x : Int) : Nat := (x % 0x100000000).toNat

/-- A C expression of type `int`: the same bits, read as signed. -/
def i32 (x : Nat) : Int := if x < 0x80000000 then x else x - 0x100000000

/-- A value of C's `int`. -/
@[ext] structure CInt where
  val : Int
  min_le : -0x80000000 ≤ val
  lt_max : val < 0x80000000
  deriving DecidableEq, Repr

instance : Zero CInt := ⟨⟨0, by decide, by decide⟩⟩

/-- `sizeof(int)`. -/
def CInt.four : CInt := ⟨4, by decide, by decide⟩

theorem u32_lt (x : Int) : u32 x < 0x100000000 := by
  rw [u32]
  omega

theorem u32_i32 {x : Nat} (h : x < 0x100000000) : u32 (i32 x) = x := by
  rw [u32, i32]
  split <;> omega

theorem u32_of_lt {x : Nat} (h : x < 0x100000000) : u32 x = x := by
  rw [u32]
  omega

/-! ## `mmu.h` -/

/-- `PGROUNDUP`, in 32 bits. -/
def pgRoundUp (sz : Nat) : Nat := (sz + 4095) % 0x100000000 / 4096 * 4096

/-- `PGROUNDDOWN`. -/
def pgRoundDown (a : Nat) : Nat := a / 4096 * 4096

/-- `PDX`, the page-directory index of an address. -/
def pdx (va : Nat) : Nat := va / 0x400000 % 1024

/-- `PTX`, the page-table index of an address. -/
def ptx (va : Nat) : Nat := va / 0x1000 % 1024

def PTE_P : Nat := 1
def PTE_W : Nat := 2
def PTE_U : Nat := 4

/-- `*pte & PTE_P`. -/
def Present (w : Nat) : Prop := w &&& PTE_P ≠ 0

/-- `*pte & PTE_U`. -/
def User (w : Nat) : Prop := w &&& PTE_U ≠ 0

instance (w : Nat) : Decidable (Present w) := inferInstanceAs (Decidable (_ ≠ _))
instance (w : Nat) : Decidable (User w) := inferInstanceAs (Decidable (_ ≠ _))

/-- The frame `PTE_ADDR` points at. -/
def pteFrame (w : Nat) : Nat := w / 4096

/-- `PTE_FLAGS`. -/
def pteFlags (w : Nat) : Nat := w % 4096

/-- `pa | perm | PTE_P`. -/
def mkPte (pa perm : Nat) : Nat := pa ||| perm ||| PTE_P

/-! ## Rounding -/

theorem pgRoundUp_eq {sz : Nat} (h : sz + 4095 < 0x100000000) :
    pgRoundUp sz = (sz + 4095) / 4096 * 4096 := by
  rw [pgRoundUp, Nat.mod_eq_of_lt h]

theorem pgRoundUp_mod (sz : Nat) : pgRoundUp sz % 4096 = 0 := Nat.mul_mod_left _ _

theorem pgRoundUp_of_mod {a : Nat} (h : a % 4096 = 0) (hlt : a + 4095 < 0x100000000) :
    pgRoundUp a = a := by
  rw [pgRoundUp_eq hlt]
  omega

/-! ## Indices of a page -/

theorem pdx_eq (va : Nat) (h : va < 0x100000000) : pdx va = va / 4096 / 1024 := by
  rw [pdx]
  omega

theorem ptx_eq (va : Nat) : ptx va = va / 4096 % 1024 := rfl

theorem pdx_lt (va : Nat) : pdx va < 1024 := Nat.mod_lt _ (by decide)

/-! ## Flags -/

theorem present_iff {w : Nat} : Present w ↔ w % 2 = 1 := by
  rw [Present, PTE_P, Nat.and_one_is_mod]
  omega

@[simp] theorem not_present_zero : ¬ Present 0 := by simp [present_iff]

@[simp] theorem not_user_zero : ¬ User 0 := by decide

theorem user_iff {w : Nat} : User w ↔ w.testBit 2 = true := by
  have h : w &&& PTE_U = (w.testBit 2).toNat * 2 ^ 2 := Nat.and_two_pow w 2
  rw [User, h]
  cases w.testBit 2 <;> simp

/-- Page-aligned addresses and flags do not overlap. -/
theorem mkPte_eq (f : Nat) {perm : Nat} (h : perm < 4096) :
    mkPte (4096 * f) perm = 4096 * f + (perm ||| PTE_P) := by
  have hp : perm ||| PTE_P < 2 ^ 12 := Nat.or_lt_two_pow (by simpa using h) (by decide)
  rw [mkPte, Nat.or_assoc]
  exact (Nat.two_pow_add_eq_or_of_lt hp f).symm

theorem or_present_mod (perm : Nat) : (perm ||| PTE_P) % 2 = 1 := by
  rw [PTE_P, ← Nat.and_one_is_mod, Nat.and_or_distrib_right]
  rcases Nat.mod_two_eq_zero_or_one perm with h | h <;> rw [Nat.and_one_is_mod, h] <;> rfl

theorem present_mkPte (pa perm : Nat) : Present (mkPte pa perm) := by
  rw [present_iff, mkPte]
  exact or_present_mod _

theorem pteFrame_mkPte (f : Nat) {perm : Nat} (h : perm < 4096) :
    pteFrame (mkPte (4096 * f) perm) = f := by
  have hp : perm ||| PTE_P < 2 ^ 12 := Nat.or_lt_two_pow (by simpa using h) (by decide)
  rw [mkPte_eq f h, pteFrame]
  omega

theorem user_mkPte_iff (f perm : Nat) : User (mkPte (4096 * f) perm) ↔ User perm := by
  have haddr : (4096 * f).testBit 2 = false := Nat.testBit_two_pow_mul (i := 12) ▸ rfl
  have hpres : PTE_P.testBit 2 = false := rfl
  rw [user_iff, user_iff, mkPte, Nat.testBit_or, Nat.testBit_or, haddr, hpres, Bool.false_or,
    Bool.or_false]

end Xv6
