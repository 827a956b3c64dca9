import Xv6Ipc.Process.Calls

/-!
# Process/Boot — the first process, and runs from there

`userinit` makes the first process by hand: a slot from `allocproc`, the kernel half from `setupkvm`,
and one page with the bytes of `initcode`:

    PowerOn ──userinit──▸ Boot ──fork, exec, …──▸ …

Every other process comes out of system calls.  The free list at the start is any list of frames that
sees `userinit` through, so that a run may find memory exhausted at any later call.
-/

namespace Xv6

open Function

/-- `inituvm`: page `0` with the bytes `init`.  Neither the frame nor the answer of `mappages` is
looked at. -/
def inituvm (m : Mem) (pgdir : Nat) (init : List Nat) : Except Panic Mem :=
  if 4096 ≤ init.length then .error .inituvm
  else
    match kalloc m with
    | (none, _) => .error .nullDeref
    | (some f, m) =>
      match mappages (m.fill f fun _ => 0) pgdir (0 * 4096) 4096 (4096 * f) (PTE_W ||| PTE_U) with
      | .error e => .error e
      | .ok (_, m) => .ok (m.putBytes f 0 init)

def ROOTINO : Nat := 1

/-- `userinit`. -/
def userinit (L : Linker) (k : Kernel) (init : List Nat) : Except Panic Kernel :=
  match allocproc k with
  | (none, _) => .error .nullDeref
  | (some q, k) =>
    match setupkvm L k.mem with
    | .error e => .error e
    | .ok (none, _) => .error .userinit
    | .ok (some d, m) =>
      match inituvm m d init with
      | .error e => .error e
      | .ok m =>
        .ok ({ idup k ROOTINO with mem := m, initproc := q }.setProc q
          { k.proc q with
            pgdir := d, sz := 4096, tf := ⟨0, 4096, 0⟩, name := safestrcpy (cstr "initcode") 16
            cwd := some ROOTINO, state := .runnable })

/-- An entry of `shared[]` in memory that was never written. -/
def Shared.zero : Shared := ⟨List.replicate SHAREDNAME 0, 0, 0⟩

/-- A slot that was never written. -/
def Proc.zero : Proc where
  sz := 0
  pgdir := 0
  parentpgdir := 0
  kstack := 0
  state := .unused
  pid := 0
  parent := none
  tf := ⟨0, 0, 0⟩
  killed := false
  ofile := fun _ => none
  cwd := none
  name := []
  shared := List.replicate MAXSHARED Shared.zero

/-- How many frames `userinit` takes: a stack, a directory with the tables of the kernel half, a page
and its table. -/
def bootFrames : Nat := 68

/-- **The kernel before `userinit`**: zeroed tables and a free list. -/
structure PowerOn (L : Linker) (k : Kernel) : Prop where
  nodup : k.mem.free.Nodup
  frame : ∀ f ∈ k.mem.free, L.Frame f
  memory : bootFrames ≤ k.mem.free.length
  vmfreed : k.mem.vmfreed = []
  proc : ∀ c, k.proc c = .zero
  file : ∀ f, k.file f = ⟨0, none⟩
  iref : ∀ ip, k.iref ip = 0
  nextpid : k.nextpid = 1

/-- **The kernel after `userinit`.** -/
def Boot (L : Linker) (k : Kernel) : Prop :=
  ∃ k₀ init, PowerOn L k₀ ∧ userinit L k₀ init = .ok k

/-- A system call, by whom, and the answer. -/
structure Event where
  who : Slot
  call : Call
  ret : Option Int

/-- **One step**: a process that runs makes a call, which comes back. -/
def Step (L : Linker) (k : Kernel) (e : Event) (k' : Kernel) : Prop :=
  (k.proc e.who).Runs ∧ syscall L k e.who e.call = .ok (e.ret, k')

variable {L : Linker} {k k₀ : Kernel} {m m' : Mem} {d : Nat} {init : List Nat}

/-! ## `userinit` succeeds -/

/-- **`inituvm`** of a new directory. -/
theorem inituvm_spec (hn : m.free.Nodup) (hd : NewDir L m m' d) (hinit : init.length < 4096)
    (hmem : 2 ≤ m'.free.length) :
    ∃ m'', inituvm m' d init = .ok m'' ∧ Image m m'' d 4096 (kernelEntry L) := by
  have hn' := hd.image.dirFrames_nodup hn
  have hfresh : ¬ Present (entry m' d 0) := by
    rw [hd.entry_user (by decide)]
    exact not_present_zero
  rw [inituvm, if_neg (not_le.mpr hinit)]
  rcases kalloc_map_cases hn' (by decide) hfresh (fun _ => PTE_W ||| PTE_U) (by decide)
      fun _ _ => 0 with
    ⟨-, hout⟩ | ⟨f, m₁, hk, -, ⟨m₂, hr, hb, hentry⟩ | ⟨m₂, hr, hmove, -, htab, -, hout, -⟩⟩
  · rw [hout] at hmem
    simp at hmem
  · have hg := hb.grown (Nat.zero_le 1) (by decide) hd.image.gap
    have him : Image m m₂ d 4096 (kernelEntry L) := by
      refine ⟨hd.image.moves.trans hg.moves, fun v hv => ?_, hg.gap hd.image.gap (Nat.zero_le 1),
        fun v hv => ?_, by decide, hb.vmfreed.trans hd.vmfreed, hd.taken⟩
      · obtain ⟨g, hg⟩ := hg.page v (Nat.zero_le v) hv
        rw [hg]
        exact present_mkPte _ _
      · rw [hb.keep v (by omega)]
        exact hd.entry v
    have hp : Present (entry m₂ d 0) := him.low 0 (by decide)
    have hf : pteFrame (entry m₂ d 0) = f := by
      rw [hentry]
      exact pteFrame_mkPte f (by decide)
    have hs := Scribbled.putBytes (by decide) hp 0 init
    rw [hf] at hs
    refine ⟨m₂.putBytes f 0 init, ?_, him.scribbled hn hs⟩
    simp only [hk, hr]
  · -- with two frames there is one left for the table
    have hlen := hmove.length
    rw [hout, dirFrames, dirFrames, tables, tables, htab] at hlen
    simp only [List.length_append, List.length_cons, List.length_nil] at hlen
    omega

/-- The first process, with its stack and its directory. -/
def firstProc (f d : Nat) : Proc :=
  { Proc.zero with
    sz := 4096, pgdir := d, kstack := f, state := .runnable, pid := 1, tf := ⟨0, 4096, 0⟩
    cwd := some ROOTINO, name := safestrcpy (cstr "initcode") 16 }

/-- **What `userinit` leaves**: one process of one page, in a table of free slots. -/
structure Booted (L : Linker) (k₀ k : Kernel) (f d : Nat) : Prop where
  proc : k.proc = update (fun _ => .zero) k.initproc (firstProc f d)
  moves : k₀.mem.Moves [] k.mem (f :: owned k.mem d)
  low : Present (entry k.mem d 0)
  gap : Gap k.mem d 1
  upper : ∀ v, 0x40000 ≤ v → entry k.mem d v = kernelEntry L v
  vmfreed : k.mem.vmfreed = []
  file : k.file = k₀.file
  iref : k.iref = update (fun _ => 0) ROOTINO 1
  nextpid : k.nextpid = 2

theorem userinit_spec (h : PowerOn L k₀) (hinit : init.length < 4096) :
    ∃ k f d, userinit L k₀ init = .ok k ∧ Booted L k₀ k f d := by
  have hproc : k₀.proc = fun _ => .zero := funext h.proc
  have hmem := h.memory
  rw [bootFrames] at hmem
  rcases allocproc_cases k₀ with ⟨hused, -⟩ | ⟨-, -, hfree, -⟩ | ⟨q, f, m, -, -, hk, ha⟩
  · exact absurd (by rw [hproc]; rfl) (hused k₀.initproc)
  · rw [hfree] at hmem
    simp at hmem
  obtain ⟨hpop, -, hcell, hvm⟩ := moves_kalloc hk
  have hnf : (m.free ++ [f]).Nodup := hpop.nodup (by simpa using h.nodup)
  have hn : m.free.Nodup := (List.nodup_append.mp hnf).1
  have hlen : k₀.mem.free.length = m.free.length + 1 := by simpa using hpop.length
  have hL : ∀ g ∈ m.free, L.Frame g := fun g hg => h.frame g (by
    simpa using hpop.mem_iff.mp (.inl hg))
  rcases setupkvm_cases hn hL with ⟨m₁, d, hr, hd⟩ | ⟨-, -, -, hle, -⟩
  case inr => omega
  have hkeep : 2 ≤ m₁.free.length := by
    have hmoves := hd.moves.length
    have htab := length_tables_le hd.tables
    have hkt : kernelTables.length = 64 := by decide
    simp only [dirFrames, List.length_cons, List.length_nil] at hmoves
    omega
  obtain ⟨m₂, hr', him⟩ := inituvm_spec hn hd hinit hkeep
  refine ⟨{ k₀ with
      mem := m₂, proc := update k₀.proc q (firstProc f d)
      iref := update k₀.iref ROOTINO (k₀.iref ROOTINO + 1), nextpid := k₀.nextpid + 1
      initproc := q }, f, d, ?_, ?_⟩
  · rw [userinit, ha]
    simp only [Kernel.setProc_mem, hr, hr', Kernel.setProc_proc_self]
    simp only [Kernel.setProc, idup, Kernel.setIref, update_idem, embryo, hproc, firstProc,
      h.nextpid]
    rfl
  · refine ⟨by rw [hproc], ?_, him.low 0 (by decide), him.gap, him.upper, ?_, rfl, ?_, ?_⟩
    · have hmove := hpop.trans (him.moves.extend [f])
      exact hmove.congr (List.Perm.refl _) (List.perm_append_singleton f _)
    · rw [him.vmfreed, hvm, h.vmfreed]
    · simp only [funext h.iref]
    · simp only [h.nextpid]

/-- `userinit` comes back only with an image. -/
theorem length_of_userinit (h : userinit L k₀ init = .ok k) : init.length < 4096 := by
  by_contra hlong
  rw [userinit] at h
  split at h
  · simp at h
  · split at h
    · simp at h
    · simp at h
    · rw [inituvm, if_pos (not_lt.mp hlong)] at h
      simp at h

/-- **Every booted kernel is one.** -/
theorem Boot.booted (h : Boot L k) : ∃ k₀ f d, PowerOn L k₀ ∧ Booted L k₀ k f d := by
  obtain ⟨k₀, init, hon, hr⟩ := h
  obtain ⟨k', f, d, hr', hb⟩ := userinit_spec hon (length_of_userinit hr)
  obtain rfl : k = k' := Except.ok.inj (hr.symm.trans hr')
  exact ⟨k₀, f, d, hon, hb⟩

/-- Before `userinit` nobody holds anything. -/
theorem PowerOn.core (h : PowerOn L k₀) : Core L k₀ := by
  have hdead : ∀ c, ¬ (k₀.proc c).Live := fun c => by
    rw [h.proc c]
    decide
  have hnone : holdings k₀ = [] := by
    rw [holdings, List.flatMap_eq_nil_iff]
    exact fun c _ => if_neg (hdead c)
  refine ⟨?_, ?_, fun c hl => absurd hl (hdead c), fun c hl => absurd hl (hdead c), fun c => ?_⟩
  · rw [hnone, List.append_nil]
    exact h.nodup
  · rw [hnone, List.append_nil]
    exact h.frame
  · rw [h.proc c]
    rfl

namespace Booted

variable {f d : Nat} (hb : Booted L k₀ k f d)
include hb

theorem first : k.proc k.initproc = firstProc f d := by rw [hb.proc, update_self]

theorem other {c : Slot} (hne : c ≠ k.initproc) : k.proc c = .zero := by
  rw [hb.proc, update_of_ne hne]

/-- A live slot is the first process's. -/
theorem eq_of_live {c : Slot} (hl : (k.proc c).Live) : c = k.initproc := by
  by_contra hne
  rw [hb.other hne] at hl
  exact hl rfl

/-- How much memory is left. -/
theorem length_free_le : k₀.mem.free.length ≤ k.mem.free.length + 1027 := by
  have hlen := hb.moves.length
  have hown := hb.gap.length_owned_le (by decide)
  rw [List.length_nil, List.length_cons] at hlen
  omega

theorem runs : (k.proc k.initproc).Runs := by
  rw [hb.first]
  exact .inl rfl

/-- **The books are in order at the start.** -/
theorem core (hon : PowerOn L k₀) : Core L k := by
  have hdead : (k₀.proc k.initproc).state = .unused := by rw [hon.proc]; rfl
  have htrade : Trade k₀ k k.initproc [] := by
    refine ⟨?_, fun c hne => .of_eq ?_, fun _ => ?_, fun _ => ?_, ?_⟩
    · rw [hold_of_unused hdead, hold_of_live hb.runs.live, hb.first, List.append_nil]
      exact hb.moves
    · rw [hb.other hne, hon.proc]
    · rw [hb.first]
      change 4096 < SHAREBASE
      decide
    · rw [hb.first]
      change Gap k.mem d ((4096 + 4095) / 4096)
      exact hb.gap
    · rw [hb.first]
      rfl
  exact htrade.core hon.core

end Booted

/-! ## A machine to boot -/

/-- A kernel image of a little over a megabyte. -/
def bareLinker : Linker where
  data := 0x80108000
  kend := 0x80115000
  data_aligned := by decide
  kernlink_lt_data := by decide
  data_le_kend := by decide
  kend_lt := by decide

/-- The machine with `n` free frames from the fourth megabyte on. -/
def bareKernel (n : Nat) : Kernel where
  mem := { free := List.range' 0x400 n, cell := fun _ _ => 0, vmfreed := [] }
  proc := fun _ => .zero
  file := fun _ => ⟨0, none⟩
  iref := fun _ => 0
  nextpid := 1
  initproc := ⟨0, NPROC_pos⟩

theorem bareKernel_powerOn {n : Nat} (hn : bootFrames ≤ n) (hn' : n ≤ 0xDC00) :
    PowerOn bareLinker (bareKernel n) where
  nodup := List.nodup_range'
  frame f hf := by
    obtain ⟨hlo, hhi⟩ := List.mem_range'_1.mp hf
    simp only [Linker.Frame, bareLinker, KERNBASE, PHYSTOP]
    omega
  memory := by simpa [bareKernel] using hn
  vmfreed := rfl
  proc _ := rfl
  file _ := rfl
  iref _ := rfl
  nextpid := rfl

/-- It boots. -/
theorem exists_boot (n : Nat) (hn : bootFrames ≤ n) (hn' : n ≤ 0xDC00) :
    ∃ k f d, Boot bareLinker k ∧ Booted bareLinker (bareKernel n) k f d := by
  have hon := bareKernel_powerOn hn hn'
  have hsmall : ([] : List Nat).length < 4096 := by decide
  obtain ⟨k, f, d, hr, hb⟩ := userinit_spec hon hsmall
  exact ⟨k, f, d, ⟨bareKernel n, [], hon, hr⟩, hb⟩

end Xv6
