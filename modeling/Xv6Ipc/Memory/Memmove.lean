import Xv6Ipc.Memory.Layout

/-!
# Memory/Memmove — the kernel's `memmove` and the user library's

The kernel copies from the top down where the destination begins inside the source.  The library always
copies from the bottom up, and there reads what it has written:

    src ─────g─────▸ dst                 byte j of dst  =  byte j mod g of src

It also takes the length as an `int`.
-/

namespace Xv6.Memmove

open Function

variable {α : Type} {mem : Nat → α} {dst src n a : Nat}

/-- `while(n-- > 0) *d++ = *s++`. -/
def forward : Nat → Nat → Nat → (Nat → α) → Nat → α
  | 0, _, _, mem => mem
  | n + 1, d, s, mem => forward n (u32 (d + 1)) (u32 (s + 1)) (update mem d (mem s))

/-- `while(n-- > 0) *--d = *--s`. -/
def backward : Nat → Nat → Nat → (Nat → α) → Nat → α
  | 0, _, _, mem => mem
  | n + 1, d, s, mem =>
    backward n (u32 (d - 1)) (u32 (s - 1)) (update mem (u32 (d - 1)) (mem (u32 (s - 1))))

/-- `memmove` of `kernel/string.c`. -/
def kmemmove (dst src n : Nat) (mem : Nat → α) : Nat → α :=
  if src < dst ∧ dst < u32 (src + n) then backward n (u32 (dst + n)) (u32 (src + n)) mem
  else forward n dst src mem

/-- `memmove` of `user/ulib.c`; `n` is an `int`. -/
def umemmove (dst src n : Nat) (mem : Nat → α) : Nat → α := forward (i32 n).toNat dst src mem

/-- **What both are to do**: `n` bytes from `src` are at `dst`, and no other byte has changed. -/
def Moved (dst src n : Nat) (mem mem' : Nat → α) : Prop :=
  (∀ i < n, mem' (dst + i) = mem (src + i)) ∧ ∀ a, a < dst ∨ dst + n ≤ a → mem' a = mem a

/-- **From the bottom up**, each byte is one of the first `dst - src`, if there are that many. -/
theorem forward_apply (hd : dst + n ≤ 2 ^ 32) (hs : src + n ≤ 2 ^ 32) :
    forward n dst src mem a
      = if dst ≤ a ∧ a < dst + n then mem (src + (a - dst) % (dst - src)) else mem a := by
  induction n generalizing dst src mem with
  | zero => rw [forward, if_neg (by omega)]
  | succ n ih =>
    have hptr : forward n (u32 (dst + 1)) (u32 (src + 1)) = @forward α n (dst + 1) (src + 1) := by
      cases n with
      | zero => rfl
      | succ n => congr 1 <;> (rw [u32]; omega)
    rw [forward, hptr, ih (by omega) (by omega), Nat.add_sub_add_right]
    rcases Nat.lt_trichotomy a dst with hlt | rfl | hgt
    · rw [if_neg (by omega), if_neg (by omega), update_of_ne hlt.ne]
    · rw [if_neg (by omega), if_pos (by omega), update_self, Nat.sub_self, Nat.zero_mod]
      rfl
    obtain ⟨j, rfl⟩ := Nat.exists_eq_add_of_lt hgt
    by_cases hj : j < n
    · have hlow : dst + j + 1 - (dst + 1) = j := by omega
      have hup : dst + j + 1 - dst = j + 1 := by omega
      rw [if_pos (by omega), if_pos (by omega), hlow, hup, ← Nat.mod_add_mod j _ 1]
      have hmod : src < dst → j % (dst - src) < dst - src := fun h => Nat.mod_lt _ (by omega)
      by_cases hg : j % (dst - src) + 1 = dst - src
      · -- the next byte is read where the first one was written
        rw [hg, Nat.mod_self, show src + 1 + j % (dst - src) = dst by omega, update_self]
        rfl
      · have hnext : (j % (dst - src) + 1) % (dst - src) = j % (dst - src) + 1 := by
          by_cases hle : dst ≤ src
          · rw [Nat.sub_eq_zero_of_le hle, Nat.mod_zero]
          · exact Nat.mod_eq_of_lt (by omega)
        rw [update_of_ne (by omega), hnext, Nat.add_assoc, Nat.add_comm 1]
    · rw [if_neg (by omega), if_neg (by omega), update_of_ne (by omega)]

/-- **From the top down**, with the destination above the source. -/
theorem backward_apply (h : src < dst) (hd : dst + n ≤ 2 ^ 32) :
    backward n (u32 (dst + n)) (u32 (src + n)) mem a
      = if dst ≤ a ∧ a < dst + n then mem (src + (a - dst)) else mem a := by
  induction n generalizing mem with
  | zero => rw [backward, if_neg (by omega)]
  | succ n ih =>
    have hptr : ∀ x, x ≤ dst → u32 ((u32 (x + (n + 1 : Nat)) : Int) - 1) = u32 (x + n)
        ∧ u32 (x + n) = x + n := fun x hx => by
      simp only [u32]
      omega
    rw [backward, (hptr dst le_rfl).1, (hptr src h.le).1, ih (by omega), (hptr dst le_rfl).2,
      (hptr src h.le).2]
    by_cases hin : dst ≤ a ∧ a < dst + n
    · rw [if_pos hin, if_pos (by omega), update_of_ne (by omega)]
    rw [if_neg hin]
    by_cases ha : a = dst + n
    · rw [if_pos (by omega), ha, update_self, Nat.add_sub_cancel_left]
    · rw [if_neg (by omega), update_of_ne ha]

/-- What a loop has to do that copies byte `g j` of the source to byte `j` of the destination. -/
theorem moved_iff (g : Nat → Nat) {mem' : Nat → α}
    (h : ∀ a, mem' a = if dst ≤ a ∧ a < dst + n then mem (src + g (a - dst)) else mem a) :
    Moved dst src n mem mem' ↔ ∀ i < n, mem (src + g i) = mem (src + i) := by
  have hin : ∀ i < n, mem' (dst + i) = mem (src + g i) := fun i hi => by
    rw [h, if_pos (by omega), Nat.add_sub_cancel_left]
  refine ⟨fun hm i hi => (hin i hi).symm.trans (hm.1 i hi), fun hg => ⟨fun i hi => ?_, fun a ha => ?_⟩⟩
  · rw [hin i hi, hg i hi]
  · rw [h, if_neg (by omega)]

theorem forward_moved_iff (hd : dst + n ≤ 2 ^ 32) (hs : src + n ≤ 2 ^ 32) :
    Moved dst src n mem (forward n dst src mem)
      ↔ ∀ i < n, mem (src + i % (dst - src)) = mem (src + i) :=
  moved_iff (· % (dst - src)) fun _ => forward_apply hd hs

/-- The library's loop moves the bytes if the destination does not begin inside the source. -/
theorem forward_moved (hd : dst + n ≤ 2 ^ 32) (hs : src + n ≤ 2 ^ 32)
    (h : ¬ (src < dst ∧ dst < src + n)) : Moved dst src n mem (forward n dst src mem) := by
  refine (forward_moved_iff hd hs).mpr fun i hi => ?_
  by_cases hle : dst ≤ src
  · rw [Nat.sub_eq_zero_of_le hle, Nat.mod_zero]
  · rw [Nat.mod_eq_of_lt (by omega)]

/-- **The kernel's `memmove` moves the bytes.** -/
theorem kmemmove_moved (hd : dst + n ≤ 2 ^ 32) (hs : src + n ≤ 2 ^ 32) :
    Moved dst src n mem (kmemmove dst src n mem) := by
  rw [kmemmove]
  split
  · rename_i h
    exact (moved_iff id fun a => backward_apply h.1 hd).mpr fun i _ => rfl
  · rename_i h
    refine forward_moved hd hs fun hin => h ⟨hin.1, ?_⟩
    rw [u32]
    omega

/-- **When the two agree.**  Both move the bytes, whatever they are, exactly if the destination does not begin
inside the source, and the length is an `int` or there is nothing to move. -/
theorem memmoves_agree_iff (hn : n < 2 ^ 32) (hd : dst + n ≤ 2 ^ 32) (hs : src + n ≤ 2 ^ 32) :
    (∀ mem : Nat → Nat, Moved dst src n mem (kmemmove dst src n mem)
        ∧ Moved dst src n mem (umemmove dst src n mem))
      ↔ ¬ (src < dst ∧ dst < src + n) ∧ (n < 2 ^ 31 ∨ dst = src) := by
  have hint : (i32 n).toNat = if n < 2 ^ 31 then n else 0 := by
    rw [i32]
    split <;> split <;> omega
  simp only [umemmove, hint]
  constructor
  · intro h
    -- a memory that tells the first byte of the destination from the others
    have hm := (h fun a => if a = dst then 1 else 0).2
    split at hm
    · rename_i hlt
      refine ⟨fun hin => ?_, .inl hlt⟩
      have hbyte := (forward_moved_iff hd hs).mp hm (dst - src) (by omega)
      rw [Nat.mod_self, if_neg (by omega), if_pos (by omega)] at hbyte
      exact absurd hbyte (by decide)
    · have hbyte : _ = if src = dst then 1 else 0 := hm.1 0 (by omega)
      rw [forward, Nat.add_zero, if_pos rfl] at hbyte
      have he : src = dst := of_not_not fun hne => by simp [hne] at hbyte
      exact ⟨by omega, .inr he.symm⟩
  · rintro ⟨hout, hlen⟩ mem
    refine ⟨kmemmove_moved hd hs, ?_⟩
    split
    · exact forward_moved hd hs hout
    · obtain rfl := hlen.resolve_left ‹_›
      exact ⟨fun _ _ => rfl, fun _ _ => rfl⟩

theorem memmoves_agree_iff_down :
    (∀ mem : Nat → Nat, Moved 0 1 2 mem (kmemmove 0 1 2 mem) ∧ Moved 0 1 2 mem (umemmove 0 1 2 mem))
      ↔ ¬ (1 < 0 ∧ 0 < 1 + 2) ∧ (2 < 2 ^ 31 ∨ 0 = 1) :=
  memmoves_agree_iff (by decide) (by decide) (by decide)

/-- Two bytes, one up: the library copies the first one twice. -/
theorem umemmove_smears : ∃ mem : Nat → Nat, ¬ Moved 1 0 2 mem (umemmove 1 0 2 mem) :=
  ⟨id, fun h => absurd (h.1 1 (by decide)) (by decide)⟩

end Xv6.Memmove
