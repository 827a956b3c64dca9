import Xv6Ipc.Memory.Bytes

/-!
# Process/Arguments — fetching the arguments of a system call

The arguments lie on the user's stack, above the return address, and the kernel reads them there with
the user's own directory:

    esp ▸ return address, argument 0, argument 1, …

`esp`, the arguments and what they point to are the user's to choose.  Each function adds 32-bit words and
compares with `sz`.  As `sz` is below `SHAREBASE` no sum wraps that starts below it.  The address of an
argument, `esp + 4 + 4n`, does not start there and may wrap: it is compared afterwards.
-/

namespace Xv6

/-- The process that makes a system call. -/
structure Caller where
  mem : Mem
  pgdir : Nat
  sz : Nat
  esp : Nat

namespace Caller

/-- The byte the kernel reads at an address of the user's. -/
def byte (c : Caller) (a : Nat) : Nat := seen c.mem c.pgdir a

/-- The word there. -/
def word (c : Caller) (a : Nat) : Nat := wordAt c.byte a

/-- `fetchint`: the `int` at an address; `none` stands for `-1`. -/
def fetchint (c : Caller) (addr : Nat) : Option Int :=
  if c.sz ≤ addr ∨ c.sz < u32 (addr + 4) then none else some (i32 (c.word addr))

/-- `fetchstr`: the string at an address, with its length. -/
def fetchstr (c : Caller) (addr : Nat) : Option (Nat × Nat) :=
  if c.sz ≤ addr then none
  else
    match (List.range' addr (c.sz - addr)).find? fun s => c.byte s = 0 with
    | some s => some (addr, s - addr)
    | none => none

/-- The address of an argument. -/
def argAddr (c : Caller) (n : CInt) : Nat := u32 (c.esp + 4 + 4 * n.val)

/-- `argint`. -/
def argint (c : Caller) (n : CInt) : Option Int := c.fetchint (c.argAddr n)

/-- `argptr`. -/
def argptr (c : Caller) (n size : CInt) : Option Nat :=
  match c.argint n with
  | none => none
  | some i =>
    if size.val < 0 ∨ c.sz ≤ u32 i ∨ c.sz < u32 (u32 i + size.val) then none else some (u32 i)

/-- `argstr`. -/
def argstr (c : Caller) (n : CInt) : Option (Nat × Nat) :=
  match c.argint n with
  | none => none
  | some addr => c.fetchstr (u32 addr)

/-- **The `n` bytes at `a` are the user's.** -/
def Covers (c : Caller) (a n : Nat) : Prop := a + n ≤ c.sz

/-- …and a string of length `n`, with its `NUL`. -/
structure IsString (c : Caller) (a n : Nat) : Prop where
  covers : c.Covers a (n + 1)
  nul : c.byte (a + n) = 0
  first : ∀ k < n, c.byte (a + k) ≠ 0

variable {c : Caller} {a p len : Nat} {n size : CInt} {x : Int}

theorem fetchint_some (hsz : c.sz < SHAREBASE) (h : c.fetchint a = some x) :
    c.Covers a 4 ∧ u32 (a + 4) = a + 4 := by
  rw [SHAREBASE] at hsz
  rw [fetchint] at h
  split at h
  · cases h
  · rename_i hin
    have hsum : u32 (a + 4) = a + 4 := by
      rw [u32]
      omega
    rw [hsum] at hin
    refine ⟨?_, hsum⟩
    rw [Covers]
    omega

theorem fetchstr_some (h : c.fetchstr a = some (p, len)) : p = a ∧ c.IsString a len := by
  rw [fetchstr] at h
  split at h
  · exact nomatch h
  · rename_i hin
    cases hfind : (List.range' a (c.sz - a)).find? fun s => c.byte s = 0 with
    | none =>
      rw [hfind] at h
      exact nomatch h
    | some s =>
      rw [hfind] at h
      obtain ⟨rfl, rfl⟩ := Prod.mk.inj (Option.some.inj h)
      obtain ⟨hnul, hmem, hbefore⟩ := List.find?_range'_eq_some.mp hfind
      have hmem := List.mem_range'_1.mp hmem
      have hlast : a + (s - a) = s := by omega
      refine ⟨rfl, ?_, ?_, fun k hk => ?_⟩
      · rw [Covers]
        omega
      · rw [hlast]
        exact of_decide_eq_true hnul
      · have hk := hbefore (a + k) (Nat.le_add_right a k) (by omega)
        rw [Bool.not_eq_eq_eq_not, Bool.not_true] at hk
        exact of_decide_eq_false hk

theorem argptr_some (hsz : c.sz < SHAREBASE) (h : c.argptr n size = some p) :
    c.Covers (c.argAddr n) 4 ∧ 0 ≤ size.val ∧ c.Covers p size.val.toNat
    ∧ (u32 (p + size.val) : Int) = p + size.val := by
  rw [argptr] at h
  cases hint : c.argint n with
  | none =>
    rw [hint] at h
    exact nomatch h
  | some i =>
    obtain ⟨hcov, -⟩ := fetchint_some hsz hint
    rw [hint] at h
    simp only at h
    split at h
    · exact nomatch h
    · rename_i hin
      obtain rfl := Option.some.inj h
      have hmax := size.lt_max
      -- a pointer below `sz` and a size below `2 ^ 31`: the sum stays below `2 ^ 32`
      have hsum : (u32 (u32 i + size.val) : Int) = u32 i + size.val := by
        rw [SHAREBASE] at hsz
        generalize u32 i = q at hin ⊢
        rw [u32] at hin ⊢
        omega
      refine ⟨hcov, by omega, ?_, hsum⟩
      rw [Covers]
      omega

theorem argstr_some (hsz : c.sz < SHAREBASE) (h : c.argstr n = some (p, len)) :
    c.Covers (c.argAddr n) 4 ∧ c.IsString p len := by
  rw [argstr] at h
  cases hint : c.argint n with
  | none =>
    rw [hint] at h
    exact nomatch h
  | some i =>
    rw [hint] at h
    obtain ⟨rfl, hstr⟩ := fetchstr_some h
    exact ⟨(fetchint_some hsz hint).1, hstr⟩

/-- **What the checks let through is the user's memory.**  The address of an argument is a sum modulo
`2 ^ 32`; every sum after it is exact. -/
theorem arguments_in_user_memory (hsz : c.sz < SHAREBASE) :
    (∀ a x, c.fetchint a = some x → c.Covers a 4 ∧ u32 (a + 4) = a + 4)
    ∧ (∀ n x, c.argint n = some x →
      c.Covers (c.argAddr n) 4 ∧ u32 (c.argAddr n + 4) = c.argAddr n + 4)
    ∧ (∀ n size p, c.argptr n size = some p → c.Covers (c.argAddr n) 4 ∧ 0 ≤ size.val
      ∧ c.Covers p size.val.toNat ∧ (u32 (p + size.val) : Int) = p + size.val)
    ∧ (∀ a p len, c.fetchstr a = some (p, len) → p = a ∧ c.IsString a len)
    ∧ ∀ n p len, c.argstr n = some (p, len) → c.Covers (c.argAddr n) 4 ∧ c.IsString p len :=
  ⟨fun _ _ h => fetchint_some hsz h, fun _ _ h => fetchint_some hsz h,
    fun _ _ _ h => argptr_some hsz h, fun _ _ _ h => fetchstr_some h,
    fun _ _ _ h => argstr_some hsz h⟩

/-- A process of one page, with its stack pointer at the top of the address space. -/
def sample : Caller := ⟨sampleDir, 0x1FE, 4096, 0xFFFFFFFC⟩

theorem arguments_in_user_memory_sample :
    sample.argint 0 = some 0 ∧ sample.argAddr 0 = 0 ∧ sample.Covers (sample.argAddr 0) 4 := by
  have hint : sample.argint 0 = some 0 := by decide
  exact ⟨hint, by decide, ((arguments_in_user_memory (c := sample) (by decide)).2.1 0 0 hint).1⟩

/-- **The address of an argument can wrap.**  Four bytes below `2 ^ 32` the stack pointer puts the first
argument at address zero. -/
theorem argint_wraps : sample.sz < SHAREBASE ∧ sample.argint 0 = some 0
    ∧ u32 (sample.esp + 4 + 4 * (0 : CInt).val) ≠ sample.esp + 4 + 4 * (0 : CInt).val := by
  decide

end Caller

end Xv6
