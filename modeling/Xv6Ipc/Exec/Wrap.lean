import Xv6Ipc.Exec.Argv

/-!
# Exec/Wrap — a stack pointer that wraps

`exec` subtracts the length of a string from the stack pointer without looking whether there is room.
A wrapped pointer comes out in the upper half of the address space, from `0xC0000000` on, as no string is
longer than the memory of the process that passes it:

    0xC0000000 ──── no page tables ──── DEVSPACE ──── devices ──── 2 ^ 32
                     `uva2ka` reads                 not the user's:
                     through null                   `exec` fails

`uva2ka` is handed the null pointer just when the loop gets to a string that is 32 megabytes longer than
what is left below the stack pointer.
-/

namespace Xv6

variable {L : Linker} {m₀ m : Mem} {d sz : Nat} {up : Nat → Nat} {argv : List (List Nat)}

section Wrap

variable (hn : m₀.free.Nodup) (hL : ∀ f ∈ m₀.free, L.Frame f) (h : Image m₀ m d sz up)
  (hup : ∀ v, 0x80000 ≤ v → up v = kernelEntry L v) (ht : TablesUpTo m d ((sz + 4095) / 4096))
  (hbytes : ∀ arg ∈ argv, ∀ b ∈ arg, b < 256) (hlen : ∀ arg ∈ argv, arg.length < SHAREBASE)
include hn hL h hup ht hbytes hlen

variable (argv) in
/-- **`uva2ka` is not handed null unless a string falls.** -/
theorem copyout_never_null_iff :
    pushStack L m d sz argv ≠ .error .nullDeref ↔
      ¬ ((∃ m₁, allocuvm L m d (pgRoundUp sz) (pgRoundUp sz + 8192) = .ok (pgRoundUp sz + 8192, m₁))
        ∧ Overlong (pgRoundUp sz + 8192) 0 0 argv) := by
  rcases pushStack_ends hn hL h hup hbytes fun _ => hlen with
    ⟨m₁, m', hzero, hr⟩ | ⟨halloc, ⟨hover, hnull⟩ | ⟨hnot, ⟨sp, m', hr, -⟩ | ⟨m', hr, -⟩⟩⟩
  · refine iff_of_true (fun hnull => nomatch hr.symm.trans hnull) fun ⟨⟨m₂, hok⟩, _⟩ => ?_
    have htop := (Prod.mk.inj (Except.ok.inj (hzero.symm.trans hok))).1
    omega
  · exact iff_of_false (not_not.mpr (hnull ht)) (not_not.mpr ⟨halloc, hover⟩)
  · exact iff_of_true (fun hnull => nomatch hr.symm.trans hnull) fun hc => hnot hc.2
  · exact iff_of_true (fun hnull => nomatch hr.symm.trans hnull) fun hc => hnot hc.2

end Wrap

theorem copyout_never_null_iff_echo : ∃ m d, NewDir sampleLinker wideMem m d
    ∧ ¬ Overlong 8192 0 0 echoHi ∧ pushStack sampleLinker m d 0 echoHi ≠ .error .nullDeref := by
  obtain ⟨m, d, hd, -⟩ := exists_wide_image
  have hnot : ¬ Overlong 8192 0 0 echoHi := not_overlong (by decide) (by decide)
  refine ⟨m, d, hd, hnot, ?_⟩
  exact (copyout_never_null_iff echoHi List.nodup_range' wideMem_frame hd.image (fun _ _ => rfl)
    (hd.tablesUpTo _) (by decide) (by decide)).mpr fun hc => hnot hc.2

/-- A single argument of 48 megabytes. -/
def longArgument : List (List Nat) := [List.replicate 0x3000000 97]

/-- **A long argument makes `exec` read through null**: a program without segments, and one argument. -/
theorem long_argument_null : ∃ m d, NewDir sampleLinker wideMem m d
    ∧ (∀ arg ∈ longArgument, arg.length < SHAREBASE)
    ∧ pushStack sampleLinker m d 0 longArgument = .error .nullDeref := by
  obtain ⟨m, d, hd, hfree⟩ := exists_wide_image
  have hlen : ∀ arg ∈ longArgument, arg.length < SHAREBASE := fun arg harg => by
    rw [List.mem_singleton.mp harg, List.length_replicate]
    decide
  have hbytes : ∀ arg ∈ longArgument, ∀ b ∈ arg, b < 256 := fun arg harg b hb => by
    rw [List.mem_singleton.mp harg] at hb
    rw [List.eq_of_mem_replicate hb]
    decide
  have hfalls : Falls (8192 - 0) (List.replicate 0x3000000 97) := by
    rw [Falls, List.length_replicate]
    decide
  obtain ⟨m₁, halloc, -⟩ := hd.image.stack_allocated (L := sampleLinker) List.nodup_range' wideMem_frame
    (hd.tablesUpTo _) (lt_trans (by decide) hfree) (by decide)
  refine ⟨m, d, hd, hlen, ?_⟩
  rcases pushStack_ends List.nodup_range' wideMem_frame hd.image (fun _ _ => rfl) hbytes fun _ => hlen with
    ⟨m₂, -, hzero, -⟩ | ⟨-, ⟨-, hnull⟩ | ⟨hnot, -⟩⟩
  · cases halloc.symm.trans hzero
  · exact hnull (hd.tablesUpTo _)
  · exact absurd ⟨by decide, by decide, .inl hfalls⟩ hnot

end Xv6
