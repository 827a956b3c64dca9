import Xv6Ipc.Exec.Image
import Xv6Ipc.Memory.Bytes

/-!
# Exec/Load — loading a program

The first part of `exec`: read the ELF header, set up a directory, and load the segments one by one,
each at the address its header names.

    header ──phoff──▸ segment 0, segment 1, …        sz = the furthest end so far

Any check that fails ends in `bad`, which frees the directory; the loop never panics.
-/

namespace Xv6

open Overlay (puts puts_append puts_congr put_congr)

def ELF_MAGIC : Nat := 0x464C457F

def ELF_PROG_LOAD : Nat := 1

/-- The fields of `struct elfhdr` that are read. -/
structure Elfhdr where
  magic : Nat
  entry : Nat
  phoff : Nat
  phnum : Nat

/-- `struct elfhdr` from its bytes. -/
def elfhdr (bs : List Nat) : Elfhdr :=
  ⟨le32 bs 0, le32 bs 24, le32 bs 28, byteAt bs 44 + 256 * byteAt bs 45⟩

/-- The fields of `struct proghdr` that are read. -/
structure Proghdr where
  type : Nat
  off : Nat
  vaddr : Nat
  filesz : Nat
  memsz : Nat

/-- `struct proghdr` from its bytes. -/
def proghdr (bs : List Nat) : Proghdr :=
  ⟨le32 bs 0, le32 bs 4, le32 bs 8, le32 bs 16, le32 bs 20⟩

/-- `readi(ip, dst, off, n) != n` fails. -/
def readExact (file : List Nat) (off n : Nat) : Option (List Nat) :=
  (readi file off n).filter fun bs => bs.length = n

/-- One turn of the loop of `exec` over the program headers; `false` stands for `goto bad`. -/
def loadSegment (L : Linker) (pgdir : Nat) (file : List Nat) (phoff i : Nat) (st : Nat × Mem) :
    Except Panic (Bool × (Nat × Mem)) :=
  match readExact file (u32 (phoff + 32 * i)) 32 with
  | none => .ok (false, st)
  | some bs =>
    let ph := proghdr bs
    if ph.type ≠ ELF_PROG_LOAD then .ok (true, st)
    else if ph.memsz < ph.filesz then .ok (false, st)
    else if u32 (ph.vaddr + ph.memsz) < ph.vaddr then .ok (false, st)
    else
      match allocuvm L st.2 pgdir st.1 (u32 (ph.vaddr + ph.memsz)) with
      | .error e => .error e
      | .ok (sz, m) =>
        if sz = 0 then .ok (false, (0, m))
        else if ph.vaddr % 4096 ≠ 0 then .ok (false, (sz, m))
        else
          match loaduvm m pgdir ph.vaddr file ph.off ph.filesz with
          | .error e => .error e
          | .ok (b, m) => .ok (b, (sz, m))

/-- `bad`: give the directory back. -/
def bad {α : Type} (L : Linker) (m : Mem) (pgdir : Nat) : Except Panic (Option α × Mem) :=
  match freevm L m pgdir with
  | .error e => .error e
  | .ok m => .ok (none, m)

/-- What loading a program comes to. -/
structure Loaded where
  pgdir : Nat
  sz : Nat
  entry : Nat

/-- `exec` up to where it unlocks the file; `file` is the contents of what `namei` finds, `none`
stands for `return -1`. -/
def load (L : Linker) (m : Mem) (file : Option (List Nat)) : Except Panic (Option Loaded × Mem) :=
  match file with
  | none => .ok (none, m)
  | some file =>
    match readExact file 0 52 with
    | none => .ok (none, m)
    | some bs =>
      let elf := elfhdr bs
      if elf.magic ≠ ELF_MAGIC then .ok (none, m)
      else
        match setupkvm L m with
        | .error e => .error e
        | .ok (none, m) => .ok (none, m)
        | .ok (some pgdir, m) =>
          match Loops.each (loadSegment L pgdir file elf.phoff) (List.range elf.phnum) (0, m) with
          | .error e => .error e
          | .ok (false, (_, m)) => bad L m pgdir
          | .ok (true, (sz, m)) => .ok (some ⟨pgdir, sz, elf.entry⟩, m)

/-! ## How large the image gets -/

/-- Where segment `i` ends; `0` if it is not loaded. -/
def segmentEnd (file : List Nat) (phoff i : Nat) : Nat :=
  match readExact file (u32 (phoff + 32 * i)) 32 with
  | none => 0
  | some bs =>
    let ph := proghdr bs
    if ph.type ≠ ELF_PROG_LOAD then 0 else u32 (ph.vaddr + ph.memsz)

/-- The furthest end of a program's segments. -/
def imageSize (file : List Nat) : Nat :=
  let elf := elfhdr (file.take 52)
  (List.range elf.phnum).foldl (fun sz i => max sz (segmentEnd file elf.phoff i)) 0

/-! ## What it has in it -/

/-- Segment `i` of a program, if it is loaded. -/
def segment (file : List Nat) (phoff i : Nat) : Option Proghdr :=
  match readExact file (u32 (phoff + 32 * i)) 32 with
  | none => none
  | some bs => if (proghdr bs).type ≠ ELF_PROG_LOAD then none else some (proghdr bs)

/-- The segments of a program that are loaded. -/
def segments (file : List Nat) : List Proghdr :=
  (List.range (elfhdr (file.take 52)).phnum).filterMap (segment file (elfhdr (file.take 52)).phoff)

/-- What the file has of a segment, and where it goes. -/
def Proghdr.piece (file : List Nat) (ph : Proghdr) : Nat × List Nat :=
  (ph.vaddr, (file.drop ph.off).take ph.filesz)

/-- A segment that was loaded into an image of size `sz`. -/
structure Proghdr.Within (ph : Proghdr) (file : List Nat) (sz : Nat) : Prop where
  aligned : ph.vaddr % 4096 = 0
  filesz_le : ph.filesz ≤ ph.memsz
  end_le : ph.vaddr + ph.memsz ≤ sz
  whole : 0 < ph.filesz → ph.off + ph.filesz ≤ file.length

/-- What loading the segments `phs` has put into an image, now of size `sz`. -/
structure Pasted (file : List Nat) (m m' : Mem) (d sz : Nat) (phs : List Proghdr) : Prop where
  seen_eq : ∀ a < SHAREBASE, seen m' d a = puts (seen m d) (phs.map (Proghdr.piece file)) a
  within : ∀ ph ∈ phs, ph.Within file sz

variable {L : Linker} {m m' m'' : Mem} {d sz sz' : Nat} {file : List Nat} {phoff i : Nat}
  {ph : Proghdr} {phs phs' : List Proghdr}

theorem Pasted.append (h : Pasted file m m' d sz phs) (h' : Pasted file m' m'' d sz' phs')
    (hle : sz ≤ sz') : Pasted file m m'' d sz' (phs ++ phs') := by
  refine ⟨fun a ha => ?_, fun ph hph => ?_⟩
  · rw [List.map_append, puts_append, h'.seen_eq a ha, puts_congr (h.seen_eq a ha)]
  · rcases List.mem_append.mp hph with hph | hph
    · have hw := h.within ph hph
      exact ⟨hw.aligned, hw.filesz_le, hw.end_le.trans hle, hw.whole⟩
    · exact h'.within ph hph

theorem segment_fields (h : segment file phoff i = some ph) :
    ph.vaddr < 0x100000000 ∧ ph.memsz < 0x100000000 ∧ ph.off < 0x100000000 := by
  rw [segment] at h
  split at h
  · exact nomatch h
  · split at h
    · exact nomatch h
    · obtain rfl := Option.some.inj h
      exact ⟨le32_lt _ _, le32_lt _ _, le32_lt _ _⟩

/-! ## The loop -/

variable (file phoff i) in
/-- **One segment**: it is skipped, it is loaded and its piece put over what was there, or `exec` gives
up. -/
theorem loadSegment_cases {m₀ : Mem} {up : Nat → Nat} (hn : m₀.free.Nodup)
    (hL : ∀ f ∈ m₀.free, L.Frame f) (h : Image m₀ m d sz up)
    (ht : TablesUpTo m d ((sz + 4095) / 4096)) :
    (∃ m', loadSegment L d file phoff i (sz, m)
          = .ok (true, (max sz (segmentEnd file phoff i), m'))
        ∧ Image m₀ m' d (max sz (segmentEnd file phoff i)) up
        ∧ TablesUpTo m' d ((max sz (segmentEnd file phoff i) + 4095) / 4096)
        ∧ ((∀ b ∈ file, b < 256) →
          Pasted file m m' d (max sz (segmentEnd file phoff i)) (segment file phoff i).toList)) ∨
      ∃ st, loadSegment L d file phoff i (sz, m) = .ok (false, st)
        ∧ ∃ sz', Image m₀ st.2 d sz' up := by
  rw [loadSegment, segmentEnd, segment]
  cases hread : readExact file (u32 (phoff + 32 * i)) 32 with
  | none => exact .inr ⟨(sz, m), rfl, sz, h⟩
  | some bs =>
    simp only
    have hvaddr : (proghdr bs).vaddr < 0x100000000 := le32_lt bs 8
    have hmemsz : (proghdr bs).memsz < 0x100000000 := le32_lt bs 20
    have hoff : (proghdr bs).off < 0x100000000 := le32_lt bs 4
    generalize proghdr bs = ph at *
    by_cases hty : ph.type ≠ ELF_PROG_LOAD
    · rw [if_pos hty, if_pos hty, if_pos hty, Nat.max_zero]
      exact .inl ⟨m, rfl, h, ht, fun _ => ⟨fun _ _ => rfl, nofun⟩⟩
    rw [if_neg hty, if_neg hty, if_neg hty]
    by_cases hfile : ph.memsz < ph.filesz
    · exact .inr ⟨(sz, m), if_pos hfile, sz, h⟩
    rw [if_neg hfile]
    by_cases hwrap : u32 (ph.vaddr + ph.memsz) < ph.vaddr
    · exact .inr ⟨(sz, m), if_pos hwrap, sz, h⟩
    rw [if_neg hwrap]
    have hend : u32 (ph.vaddr + ph.memsz) = ph.vaddr + ph.memsz := by
      rw [u32] at hwrap ⊢
      omega
    rw [hend]
    rcases h.allocuvm hn hL (ph.vaddr + ph.memsz) with ⟨m', hr, -, him, hg⟩ | ⟨m', hr, him, -⟩
    case inr => exact .inr ⟨(0, m'), by simp only [hr, if_pos], sz, him⟩
    simp only [hr]
    by_cases hzero : max sz (ph.vaddr + ph.memsz) = 0
    · exact .inr ⟨(0, m'), if_pos hzero, _, him⟩
    rw [if_neg hzero]
    by_cases halign : ph.vaddr % 4096 ≠ 0
    · exact .inr ⟨_, if_pos halign, _, him⟩
    rw [if_neg halign]
    have hmax : ph.vaddr + ph.memsz ≤ max sz (ph.vaddr + ph.memsz) := le_max_right _ _
    have hsize := him.size
    obtain ⟨b, m'', hr', hs⟩ := loaduvm_spec (him.owned_nodup hn) file ph.off (not_not.mp halign)
      (by omega : ph.vaddr + ph.filesz ≤ SHAREBASE) fun v hv => him.low v (by omega)
    have him' := him.scribbled hn hs
    simp only [hr']
    cases b with
    | false => exact .inr ⟨_, rfl, _, him'⟩
    | true =>
      refine .inl ⟨m'', rfl, him', fun i hi => ?_, fun hbytes => ?_⟩
      · rw [hs.tableAt_eq (him.owned_nodup hn)] at hi
        rcases hg.grow i hi with hi | ⟨v, -, hv, rfl⟩
        · exact tablesUpTo_mono (Nat.div_le_div_right (by omega)) ht i hi
        · exact List.mem_append_right _ (List.mem_range.mpr (by omega))
      · obtain ⟨hwhole, hseen⟩ := loaduvm_bytes hbytes (by omega) (fun v hv => him.low v (by omega))
          (him.owned_nodup hn) hoff hr'
        refine ⟨fun a ha => ?_, fun ph' hph => ?_⟩
        · rw [hseen a ha, put_congr (allocuvm_bytes (h.nodup hn) (h.frame hL) h.gap hr hzero ha)]
          rfl
        · obtain rfl := List.mem_singleton.mp hph
          exact ⟨not_not.mp halign, Nat.not_lt.mp hfile, hmax, hwhole⟩

variable (file phoff) in
/-- **All segments.** -/
theorem loadSegments_cases {m₀ : Mem} {up : Nat → Nat} (l : List Nat) (hn : m₀.free.Nodup)
    (hL : ∀ f ∈ m₀.free, L.Frame f) (h : Image m₀ m d sz up)
    (ht : TablesUpTo m d ((sz + 4095) / 4096)) :
    (∃ m' sz', Loops.each (loadSegment L d file phoff) l (sz, m) = .ok (true, (sz', m'))
        ∧ sz' = l.foldl (fun sz i => max sz (segmentEnd file phoff i)) sz
        ∧ Image m₀ m' d sz' up ∧ TablesUpTo m' d ((sz' + 4095) / 4096) ∧ sz ≤ sz'
        ∧ ((∀ b ∈ file, b < 256) → Pasted file m m' d sz' (l.filterMap (segment file phoff)))) ∨
      ∃ st, Loops.each (loadSegment L d file phoff) l (sz, m) = .ok (false, st)
        ∧ ∃ sz', Image m₀ st.2 d sz' up := by
  induction l generalizing m sz with
  | nil => exact .inl ⟨m, sz, rfl, rfl, h, ht, le_rfl, fun _ => ⟨fun _ _ => rfl, nofun⟩⟩
  | cons i l ih =>
    rcases loadSegment_cases file phoff i hn hL h ht with
      ⟨m', hr, him, ht', hfill⟩ | ⟨st, hr, him⟩
    · rw [Loops.each_cons_true hr]
      refine (ih him ht').imp_left fun ⟨m'', sz', hr', hsz, him', ht'', hle, hfill'⟩ =>
        ⟨m'', sz', hr', hsz, him', ht'', (le_max_left _ _).trans hle, fun hbytes => ?_⟩
      rw [List.filterMap_eq_flatMap_toList] at hfill' ⊢
      exact (hfill hbytes).append (hfill' hbytes) hle
    · exact .inr ⟨st, Loops.each_cons_false hr, him⟩

/-! ## Loading -/

theorem readExact_zero {n : Nat} {bs : List Nat} (h : readExact file 0 n = some bs) :
    bs = file.take n := by
  rw [readExact, Option.filter_eq_some_iff, readi] at h
  obtain ⟨h, -⟩ := h
  split at h
  · simp at h
  · rw [List.drop_zero] at h
    exact (Option.some.inj h).symm

/-- A new directory shows zeroes. -/
theorem NewDir.seen_eq (h : NewDir L m m' d) {a : Nat} (ha : a < SHAREBASE) :
    seen m' d a = 0 := by
  rw [SHAREBASE] at ha
  refine seen_of_not_present ?_
  rw [h.entry_user (by omega)]
  exact not_present_zero

/-- **What loading can come to**: an image of the program's size, or nothing at all. -/
theorem load_cases (hn : m.free.Nodup) (hL : ∀ f ∈ m.free, L.Frame f)
    (file : Option (List Nat)) :
    (∃ i m' prog, file = some prog ∧ load L m file = .ok (some i, m') ∧ i.sz = imageSize prog
        ∧ Image m m' i.pgdir i.sz (kernelEntry L)
        ∧ TablesUpTo m' i.pgdir ((i.sz + 4095) / 4096)
        ∧ ((∀ b ∈ prog, b < 256) → (∀ a < SHAREBASE, seen m' i.pgdir a
            = puts (fun _ => 0) ((segments prog).map (Proghdr.piece prog)) a)
          ∧ ∀ ph ∈ segments prog, ph.Within prog i.sz)) ∨
      ∃ m', load L m file = .ok (none, m') ∧ m.Moves [] m' []
        ∧ (m'.vmfreed = m.vmfreed ∨ ∃ d ∈ m.free, m'.vmfreed = d :: m.vmfreed) := by
  have hstay : m.Moves [] m [] ∧ (m.vmfreed = m.vmfreed ∨ ∃ d ∈ m.free, m.vmfreed = d :: m.vmfreed) :=
    ⟨Heap.Moves.refl _ _, .inl rfl⟩
  cases file with
  | none => exact .inr ⟨m, rfl, hstay⟩
  | some prog =>
    rw [load]
    cases hread : readExact prog 0 52 with
    | none => exact .inr ⟨m, rfl, hstay⟩
    | some bs =>
      obtain rfl := readExact_zero hread
      simp only
      by_cases hmagic : (elfhdr (prog.take 52)).magic ≠ ELF_MAGIC
      · exact .inr ⟨m, if_pos hmagic, hstay⟩
      rw [if_neg hmagic]
      rcases setupkvm_cases hn hL with ⟨m₁, d, hr, hd⟩ | ⟨m', hr, hmove, -, hvm⟩
      case inr => exact .inr ⟨m', by rw [hr], hmove, hvm⟩
      simp only [hr]
      rcases loadSegments_cases prog (elfhdr (prog.take 52)).phoff
          (List.range (elfhdr (prog.take 52)).phnum) hn hL hd.image (hd.tablesUpTo _) with
        ⟨m', sz', hr', hsz, him, ht, -, hfill⟩ | ⟨st, hr', sz', him⟩
      · refine .inl ⟨⟨d, sz', (elfhdr (prog.take 52)).entry⟩, m', prog, rfl, by rw [hr'], hsz, him, ht,
          fun hbytes => ⟨fun a ha => ?_, (hfill hbytes).within⟩⟩
        rw [(hfill hbytes).seen_eq a ha]
        exact puts_congr (hd.seen_eq ha)
      · obtain ⟨m', hf, hmove, hvm⟩ := him.freevm hn hL
        refine .inr ⟨m', ?_, hmove, .inr ⟨d, hd.taken, hvm⟩⟩
        rw [hr']
        simp only [bad, hf]

end Xv6
