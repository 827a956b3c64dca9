import Xv6Ipc.Exec.Load

/-!
# Exec/Contents — what is in a loaded image

The program headers are the file's to choose: they may overlap, come in any order and name any addresses.
What the loop of `exec` leaves in memory is the pieces of the file put one over the other, in the order of
the headers, over zeroes:

    0 0 0 … ──piece of segment 0──▸ ──piece of segment 1──▸ …        piece = file[off, off + filesz) at vaddr

If no two segments share a page, each is found as the file has it.
-/

namespace Xv6

open Overlay (put puts puts_of_mem put_of_outside put_add)

/-! ## Segments -/

namespace Proghdr

/-- The pages of a segment. -/
def HasPage (ph : Proghdr) (v : Nat) : Prop :=
  ph.vaddr / 4096 ≤ v ∧ v < (ph.vaddr + ph.memsz + 4095) / 4096

/-- Segments that share no page. -/
def Apart (p q : Proghdr) : Prop := ∀ v, p.HasPage v → ¬ q.HasPage v

instance : Std.Symm Apart := ⟨fun _ _ h v hv hv' => h v hv' hv⟩

end Proghdr

variable {L : Linker} {m m' : Mem} {d sz sz' : Nat} {file : List Nat} {ph : Proghdr}

/-! ## Counting -/

/-- The loop `for(i = a; i < b; i += PGSIZE)`, with `i` in 32 bits, runs through `l` and ends. -/
inductive Counts (b : Nat) : Nat → List Nat → Prop
  | done {a : Nat} : b ≤ a → Counts b a []
  | turn {a : Nat} {l : List Nat} : a < b → Counts b (u32 (a + 4096)) l → Counts b a (a :: l)

/-- It does if `b` is not within a page of `2 ^ 32`. -/
theorem counts_range' {b v n : Nat} (hb : b ≤ 0xFFFFF000) (hv : v + n = (b + 4095) / 4096) :
    Counts b (4096 * v) ((List.range' v n).map (4096 * ·)) := by
  induction n generalizing v with
  | zero => exact .done (by omega)
  | succ n ih =>
    have hnext : u32 ((4096 * v : Nat) + 4096) = 4096 * (v + 1) := by
      rw [u32]
      omega
    rw [List.range'_succ, List.map_cons]
    refine .turn (by omega) ?_
    rw [hnext]
    exact ih (by omega)

/-- A segment that gets to `loaduvm` is below `SHAREBASE`, and the loop there ends. -/
theorem loaduvm_counts (hph : ph ∈ segments file) (hle : ¬ ph.memsz < ph.filesz)
    (hwrap : ¬ u32 (ph.vaddr + ph.memsz) < ph.vaddr)
    (halloc : allocuvm L m d sz (u32 (ph.vaddr + ph.memsz)) = .ok (sz', m')) (hzero : sz' ≠ 0) :
    Counts ph.filesz 0 ((pagesBetween 0 ph.filesz).map (4096 * ·)) := by
  obtain ⟨i, -, hi⟩ := List.mem_filterMap.mp hph
  obtain ⟨hvaddr, hmemsz, -⟩ := segment_fields hi
  by_cases hlt : SHAREBASE ≤ u32 (ph.vaddr + ph.memsz)
  · rw [allocuvm, if_pos hlt] at halloc
    exact absurd (Prod.mk.inj (Except.ok.inj halloc)).1.symm hzero
  · rw [u32] at hwrap hlt
    rw [SHAREBASE] at hlt
    exact counts_range' (b := ph.filesz) (v := 0) (by omega) (by omega)

/-! ## The image -/

/-- Where the segments share no page, each is seen as the file has it. -/
theorem puts_pieces (hdisj : (segments file).Pairwise Proghdr.Apart)
    (hw : ∀ ph ∈ segments file, ph.Within file sz) (hph : ph ∈ segments file) {k : Nat}
    (hk : k < ph.memsz) (f : Nat → Nat) :
    puts f ((segments file).map (Proghdr.piece file)) (ph.vaddr + k)
      = put f ph.vaddr ((file.drop ph.off).take ph.filesz) (ph.vaddr + k) := by
  refine puts_of_mem (List.mem_map_of_mem hph) fun q hq => ?_
  obtain ⟨q, hmem, rfl⟩ := List.mem_map.mp hq
  by_cases he : q = ph
  · exact .inl (congrArg _ he)
  · have hapart := hdisj.forall hph hmem (Ne.symm he) ((ph.vaddr + k) / 4096)
    have hq := (hw q hmem).filesz_le
    have hlen := List.length_take_le q.filesz (file.drop q.off)
    rw [Proghdr.HasPage, Proghdr.HasPage] at hapart
    refine .inr ?_
    change _ < q.vaddr ∨ q.vaddr + ((file.drop q.off).take q.filesz).length ≤ _
    omega

variable (file) in
/-- **The loader is safe on every file and builds the right image.**  It answers; a segment that passes the
checks has `loaduvm` count its pages to the end; and once all segments are in, the pages below `sz` are
mapped, and where no two segments share a page they hold what the file says, followed by zeroes. -/
theorem load_builds_image (hn : m.free.Nodup) (hL : ∀ f ∈ m.free, L.Frame f)
    (hfile : ∀ b ∈ file, b < 256) :
    (∃ r m', load L m (some file) = .ok (r, m'))
    ∧ (∀ ph ∈ segments file, ¬ ph.memsz < ph.filesz → ¬ u32 (ph.vaddr + ph.memsz) < ph.vaddr →
      ∀ m₁ m₂ d sz sz', allocuvm L m₁ d sz (u32 (ph.vaddr + ph.memsz)) = .ok (sz', m₂) → sz' ≠ 0 →
        Counts ph.filesz 0 ((pagesBetween 0 ph.filesz).map (4096 * ·)))
    ∧ ∀ i m', load L m (some file) = .ok (some i, m') →
      (∀ v < (i.sz + 4095) / 4096, Present (entry m' i.pgdir v))
      ∧ ((segments file).Pairwise Proghdr.Apart → ∀ ph ∈ segments file,
          (∀ k < ph.filesz, file[ph.off + k]? = some (seen m' i.pgdir (ph.vaddr + k)))
          ∧ ∀ k, ph.filesz ≤ k → k < ph.memsz → seen m' i.pgdir (ph.vaddr + k) = 0) := by
  refine ⟨?_, fun ph hph hle hwrap m₁ m₂ d sz sz' => loaduvm_counts hph hle hwrap, fun i m' h => ?_⟩
  · rcases load_cases hn hL (some file) with ⟨i, m', -, -, hr, -⟩ | ⟨m', hr, -⟩
    · exact ⟨some i, m', hr⟩
    · exact ⟨none, m', hr⟩
  · rcases load_cases hn hL (some file) with ⟨i', m'', prog, hprog, hr', -, him, -, hfill⟩ | ⟨m'', hr', -⟩
    case inr => exact nomatch hr'.symm.trans h
    obtain ⟨hi, rfl⟩ := Prod.mk.inj (Except.ok.inj (hr'.symm.trans h))
    obtain rfl := Option.some.inj hi
    obtain rfl := Option.some.inj hprog
    obtain ⟨hbytes, hw⟩ := hfill hfile
    refine ⟨him.low, fun hdisj ph hph => ?_⟩
    have hin := hw ph hph
    have hsize := him.size
    have hend := hin.end_le
    have hseen : ∀ k < ph.memsz, seen m'' i'.pgdir (ph.vaddr + k)
        = put (fun _ => 0) ph.vaddr ((file.drop ph.off).take ph.filesz) (ph.vaddr + k) :=
      fun k hk => by
        rw [hbytes _ (by omega)]
        exact puts_pieces hdisj hw hph hk _
    refine ⟨fun k hk => ?_, fun k hk hk' => ?_⟩
    · have hwhole := hin.whole (by omega)
      have hlen : k < ((file.drop ph.off).take ph.filesz).length := by
        rw [List.length_take, List.length_drop]
        omega
      have hle := hin.filesz_le
      rw [hseen k (by omega), put_add hlen, List.getElem_take, List.getElem_drop]
      exact List.getElem?_eq_getElem _
    · have hlen := List.length_take_le ph.filesz (file.drop ph.off)
      rw [hseen k hk', put_of_outside (by rw [Overlay.Outside]; omega)]

/-- A program with one segment of two bytes, loaded at address zero with six bytes after it. -/
def twoBytes : List Nat :=
  [0x7F, 0x45, 0x4C, 0x46] ++ List.replicate 24 0 ++ [52, 0, 0, 0] ++ List.replicate 12 0 ++ [1, 0]
    ++ List.replicate 6 0 ++ [1, 0, 0, 0, 84, 0, 0, 0] ++ List.replicate 8 0 ++ [2, 0, 0, 0, 8, 0, 0, 0]
    ++ List.replicate 8 0 ++ [0xEB, 0xFE]

theorem load_builds_image_sample :
    (segments twoBytes).map (fun ph => (ph.off, ph.vaddr, ph.filesz, ph.memsz)) = [(84, 0, 2, 8)]
    ∧ ∃ r m', load sampleLinker sampleMem (some twoBytes) = .ok (r, m') :=
  ⟨by decide, (load_builds_image twoBytes List.nodup_range' sampleMem_frame (by decide)).1⟩

end Xv6
