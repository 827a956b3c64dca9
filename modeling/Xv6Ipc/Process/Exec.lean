import Xv6Ipc.Exec.Stack
import Xv6Ipc.Process.Books
import Xv6Ipc.Sharing.Reach

/-!
# Process/Exec — replacing a process's image

`exec` in three parts — load the program, link the shared regions if the program is one of two, set
up the stack — and the commit:

    load ──▸ linkphysaddr ──▸ stack ──▸ commit, free the old image
      │            ╎             │
      └── bad      ╎ shared[]    └── bad

Linking rewrites `shared[]` of the running process before the stack part can still fail, and its
answer is not looked at.
-/

namespace Xv6

/-- Does `argv[0]` make `exec` link? -/
def LinksArg (arg0 : List Nat) : Prop :=
  strncmp (cstr "primecalc") arg0 SHAREDNAME = 0 ∨ strncmp (cstr "primecom") arg0 SHAREDNAME = 0

instance (arg0 : List Nat) : Decidable (LinksArg arg0) := inferInstanceAs (Decidable (_ ∨ _))

/-- The two calls of `linkphysaddr` in `exec`; what they answer is dropped. -/
def linkImage (L : Linker) (m : Mem) (pgdir : Nat) (arg0 : List Nat) (p : Proc) :
    Except Panic (Mem × List Shared) :=
  if strncmp (cstr "primecalc") arg0 SHAREDNAME = 0 then
    (linkphysaddr L m pgdir 1 p.parentpgdir p.shared).map Prod.snd
  else if strncmp (cstr "primecom") arg0 SHAREDNAME = 0 then
    (linkphysaddr L m pgdir 1 p.parentpgdir p.shared).map Prod.snd
  else .ok (m, p.shared)

/-- `switchuvm`'s checks. -/
def switchuvm (p : Proc) : Except Panic Unit :=
  if p.kstack = 0 then .error .switchuvm
  else if p.pgdir = 0 then .error .switchuvm
  else .ok ()

/-- The part of a path after its last slash. -/
def lastComponent (path : List Nat) : List Nat := (path.reverse.takeWhile (· ≠ 47)).reverse

/-- What `exec` is called with: the contents of the file at the path, the path, the arguments, and
the bytes at user address `0`, which is what `argv[0]` reads as when there are no arguments. -/
structure ExecArgs where
  file : Option (List Nat)
  path : List Nat
  argv : List (List Nat)
  null : List Nat

/-- `argv[0]`. -/
def ExecArgs.arg0 (a : ExecArgs) : List Nat := a.argv.headD a.null

/-- `exec`. -/
def exec (L : Linker) (k : Kernel) (c : Slot) (a : ExecArgs) : Except Panic (Int × Kernel) :=
  match load L k.mem a.file with
  | .error e => .error e
  | .ok (none, m) => .ok (-1, { k with mem := m })
  | .ok (some i, m) =>
    match linkImage L m i.pgdir a.arg0 (k.proc c) with
    | .error e => .error e
    | .ok (m, shared) =>
      let p := { k.proc c with shared := shared }
      match pushStack L m i.pgdir i.sz a.argv with
      | .error e => .error e
      | .ok (none, m) => .ok (-1, { k with mem := m }.setProc c p)
      | .ok (some (sz, sp), m) =>
        let p' := { p with
          name := safestrcpy (lastComponent a.path) 16, pgdir := i.pgdir, sz := sz
          tf := { p.tf with eip := i.entry, esp := sp } }
        match switchuvm p' with
        | .error e => .error e
        | .ok () =>
          match freevm L m p.pgdir with
          | .error e => .error e
          | .ok m => .ok (0, { k with mem := m }.setProc c p')

variable {L : Linker} {k k' : Kernel} {c : Slot} {a : ExecArgs} {r : Int}

/-- The process as `exec` commits it. -/
def commit (p : Proc) (a : ExecArgs) (i : Loaded) (shared : List Shared) (sz sp : Nat) : Proc :=
  { p with
    shared := shared, name := safestrcpy (lastComponent a.path) 16, pgdir := i.pgdir, sz := sz
    tf := { p.tf with eip := i.entry, esp := sp } }

/-- **Every way `exec` can return**: nothing was loaded, or a program was loaded and linked, and then
the stack failed or the new image took the old one's place. -/
theorem exec_inv (h : exec L k c a = .ok (r, k')) :
    (∃ m, load L k.mem a.file = .ok (none, m) ∧ r = -1 ∧ k' = { k with mem := m }) ∨
      ∃ i m₁ m₂ shared, load L k.mem a.file = .ok (some i, m₁)
        ∧ linkImage L m₁ i.pgdir a.arg0 (k.proc c) = .ok (m₂, shared)
        ∧ ((∃ m₃, pushStack L m₂ i.pgdir i.sz a.argv = .ok (none, m₃) ∧ r = -1
            ∧ k' = { k with mem := m₃ }.setProc c { k.proc c with shared := shared }) ∨
          ∃ sz sp m₃ m₄, pushStack L m₂ i.pgdir i.sz a.argv = .ok (some (sz, sp), m₃)
            ∧ freevm L m₃ (k.proc c).pgdir = .ok m₄ ∧ r = 0
            ∧ k' = { k with mem := m₄ }.setProc c (commit (k.proc c) a i shared sz sp)) := by
  rw [exec] at h
  split at h
  · simp at h
  · rename_i m hload
    obtain ⟨rfl, rfl⟩ := Prod.mk.inj (Except.ok.inj h)
    exact .inl ⟨m, hload, rfl, rfl⟩
  · rename_i i m₁ hload
    split at h
    · simp at h
    · rename_i m₂ shared hlink
      simp only at h
      split at h
      · simp at h
      · rename_i m₃ hpush
        obtain ⟨rfl, rfl⟩ := Prod.mk.inj (Except.ok.inj h)
        exact .inr ⟨i, m₁, m₂, shared, hload, hlink, .inl ⟨m₃, hpush, rfl, rfl⟩⟩
      · rename_i sz sp m₃ hpush
        split at h
        · simp at h
        · split at h
          · simp at h
          · rename_i m₄ hfree
            obtain ⟨rfl, rfl⟩ := Prod.mk.inj (Except.ok.inj h)
            exact .inr ⟨i, m₁, m₂, shared, hload, hlink, .inr ⟨sz, sp, m₃, m₄, hpush, hfree, rfl, rfl⟩⟩

/-! ## Linking into a loaded image -/

/-- The shared regions are linked: the program is one of the two, and there are regions. -/
def NeedsLink (p : Proc) (arg0 : List Nat) : Prop := LinksArg arg0 ∧ regions p.shared ≠ []

/-- How many free frames see `exec` through loading and linking a program. -/
def linkFrames (file : Option (List Nat)) : Nat :=
  513 + imageFrames ((imageSize (file.getD []) + 4095) / 4096)

/-- **Linking is safe**: `parentpgdir` is null or a directory that is not on the free list, and
memory does not run out on the way. -/
structure LinkReady (m : Mem) (p : Proc) (file : Option (List Nat)) : Prop where
  held : p.parentpgdir ≠ 0 → ∀ f ∈ dirFrames m p.parentpgdir, f ∉ m.free
  memory : linkFrames file ≤ m.free.length

variable {m m₁ m₂ : Mem} {p : Proc} {d sz : Nat} {arg0 : List Nat} {shared : List Shared}

theorem linkImage_eq (L : Linker) (m : Mem) (d : Nat) (arg0 : List Nat) (p : Proc) :
    linkImage L m d arg0 p = if LinksArg arg0
      then (linkphysaddr L m d 1 p.parentpgdir p.shared).map Prod.snd else .ok (m, p.shared) := by
  rw [linkImage]
  by_cases hcalc : strncmp (cstr "primecalc") arg0 SHAREDNAME = 0
  · rw [if_pos hcalc, if_pos (.inl hcalc)]
  · rw [if_neg hcalc]
    by_cases hcom : strncmp (cstr "primecom") arg0 SHAREDNAME = 0
    · rw [if_pos hcom, if_pos (.inr hcom)]
    · rw [if_neg hcom, if_neg (show ¬ LinksArg arg0 from not_or.mpr ⟨hcalc, hcom⟩)]

/-- Without linking, nothing happens. -/
theorem linkImage_of_not_needs (hno : ¬ NeedsLink p arg0)
    (h : linkImage L m d arg0 p = .ok (m₂, shared)) : m₂ = m ∧ shared = p.shared := by
  rw [linkImage_eq] at h
  by_cases harg : LinksArg arg0
  · have hreg : regions p.shared = [] := by
      by_contra hc
      exact hno ⟨harg, hc⟩
    rw [if_pos harg, linkphysaddr] at h
    cases hl : p.shared with
    | nil => simp [hl, linkFrom, Except.map] at h
    | cons s rest =>
      have hs : s.sz = 0 := by
        by_contra hc
        rw [hl, regions_cons hc] at hreg
        simp at hreg
      rw [hl, linkFrom, if_pos hs] at h
      obtain ⟨rfl, rfl⟩ := Prod.mk.inj (Except.ok.inj h)
      exact ⟨rfl, rfl⟩
  · rw [if_neg harg] at h
    obtain ⟨rfl, rfl⟩ := Prod.mk.inj (Except.ok.inj h)
    exact ⟨rfl, rfl⟩

/-- With linking, `linkphysaddr` comes back. -/
theorem linkImage_of_links (harg : LinksArg arg0)
    (h : linkImage L m d arg0 p = .ok (m₂, shared)) :
    ∃ r, linkFrom L d p.parentpgdir 6 p.shared (4096 * 0x40000) m = .ok (r, m₂, shared) := by
  rw [linkImage_eq, if_pos harg, linkphysaddr, if_pos (by decide)] at h
  change (linkFrom L d p.parentpgdir 6 p.shared (4096 * 0x40000) m).map Prod.snd = _ at h
  cases hl : linkFrom L d p.parentpgdir 6 p.shared (4096 * 0x40000) m with
  | error e =>
    rw [hl] at h
    simp [Except.map] at h
  | ok x =>
    rw [hl] at h
    obtain ⟨r, y⟩ := x
    obtain rfl : y = (m₂, shared) := Except.ok.inj h
    exact ⟨r, rfl⟩

section Site

variable {q : Nat} (him : Image m m₁ d sz (kernelEntry L))
include him

theorem Image.dirFrames_nodup (hn : m.free.Nodup) : (m₁.free ++ dirFrames m₁ d).Nodup := by
  have := him.nodup hn
  rw [owned, ← List.append_assoc] at this
  exact (List.nodup_append.mp this).1

/-- A directory that was not free when loading began lies apart from the image. -/
theorem Image.apart (hnull : q ≠ 0) (hheld : ∀ f ∈ dirFrames m q, f ∉ m.free) :
    Apart m₁ q d ∧ entry m₁ q = entry m q := by
  have hcell : ∀ f ∈ dirFrames m q, m₁.cell f = m.cell f := fun f hf =>
    him.cell_of_held (hheld f hf)
  refine ⟨⟨hnull, fun f hf => ?_⟩, entry_congr hcell⟩
  rw [dirFrames_congr (hcell q (List.mem_cons_self ..))] at hf
  have hout : ¬ (f ∈ m₁.free ∨ f ∈ owned m₁ d) := fun hc => by
    rcases him.moves.mem_iff.mp hc with hc | hc
    · exact hheld f hf hc
    · simp at hc
  exact ⟨fun hc => hout (.inl hc), fun hc => hout (.inr (List.mem_append_left _ hc))⟩

theorem Image.present_kernel : Present (entry m₁ d 0x80000) := by
  rw [him.upper _ (by decide)]
  exact present_kmapEntry L

/-- **A loaded image is a place to link into**, if the parent's directory is held by someone. -/
theorem Image.linkSite (hn : m.free.Nodup) (hnull : q ≠ 0)
    (hheld : ∀ f ∈ dirFrames m q, f ∉ m.free) : LinkSite m₁ d q 0x40000 := by
  refine ⟨him.dirFrames_nodup hn, (him.apart hnull hheld).1, him.present_kernel, fun v hv hv' => ?_,
    le_rfl, by decide⟩
  rw [him.upper v hv, kernelEntry_of_lt hv']
  exact not_present_zero

end Site

/-- **What linking leaves of an image**: the image, with pages of the parent in the shared area. -/
structure LinkOutcome (L : Linker) (m m₂ : Mem) (d sz : Nat) (arg0 : List Nat) (p : Proc) : Prop where
  image : Image m m₂ d sz (entry m₂ d)
  tables : TablesUpTo m₂ d ((sz + 4095) / 4096)
  kernel : ∀ v, 0x80000 ≤ v → entry m₂ d v = kernelEntry L v
  shared : ∀ v, 0x40000 ≤ v → v < 0x80000 → Present (entry m₂ d v) → NeedsLink p arg0
    ∧ LinkedFrom (entry m p.parentpgdir) (entry m₂ d) 6 p.shared v

theorem LinkOutcome.not_user (h : LinkOutcome L m m₂ d sz arg0 p) :
    ∀ v, 0x80000 ≤ v → ¬ User (entry m₂ d v) := fun v hv => by
  rw [h.kernel v hv]
  exact not_user_kernelEntry L v

/-- **Linking into a loaded image**, when it is safe or not needed. -/
theorem linkImage_outcome {file : Option (List Nat)} (hn : m.free.Nodup)
    (him : Image m m₁ d sz (kernelEntry L)) (ht : TablesUpTo m₁ d ((sz + 4095) / 4096))
    (hsz : sz = imageSize (file.getD [])) (hlen : p.shared.length = MAXSHARED)
    (hready : NeedsLink p arg0 → LinkReady m p file)
    (h : linkImage L m₁ d arg0 p = .ok (m₂, shared)) : LinkOutcome L m m₂ d sz arg0 p := by
  by_cases hneed : NeedsLink p arg0
  case neg =>
    obtain ⟨rfl, -⟩ := linkImage_of_not_needs hneed h
    refine ⟨⟨him.moves, him.low, him.gap, fun _ _ => rfl, him.size, him.vmfreed, him.taken⟩, ht,
      fun v hv => him.upper v (by omega), fun v hv hv' hp => ?_⟩
    rw [him.upper v hv, kernelEntry_of_lt hv'] at hp
    exact absurd hp not_present_zero
  have hr := hready hneed
  obtain ⟨r, hlink⟩ := linkImage_of_links hneed.1 h
  have hmem : 256 ≤ m₁.free.length := by
    have hle := him.length_le ht
    have hneed := hr.memory
    rw [linkFrames, ← hsz] at hneed
    omega
  rw [MAXSHARED] at hlen
  obtain ⟨hstep, hent⟩ := linkFrom_reach hmem (.refl m₁ d) (him.dirFrames_nodup hn)
    (fun hnull => (him.apart hnull (hr.held hnull)).1) him.present_kernel le_rfl (by decide) le_rfl
    (by omega) hlink
  have hlow : ∀ v, v < 0x40000 → entry m₂ d v = entry m₁ d v := fun v hv =>
    (hent v).resolve_right fun hc => by omega
  refine ⟨him.dirStep hstep.step hlow, fun i hi => ?_, fun v hv => ?_, fun v hv hv' hp => ⟨hneed, ?_⟩⟩
  · rcases hstep.grow i hi with hi | hi
    · exact ht i hi
    · exact List.mem_append_left _ (List.mem_append_right _ (List.mem_range'_1.mpr hi))
  · rw [(hent v).resolve_right fun hc => by omega]
    exact him.upper v (by omega)
  · rcases hent v with he | ⟨hnull, -, -, hfrom⟩
    · rw [he, him.upper v hv, kernelEntry_of_lt hv'] at hp
      exact absurd hp not_present_zero
    · rwa [(him.apart hnull (hr.held hnull)).2] at hfrom

/-- The table keeps its names and sizes. -/
theorem linkImage_shape (h : linkImage L m d arg0 p = .ok (m₂, shared)) :
    shared.map (fun s => (s.name, s.sz)) = p.shared.map fun s => (s.name, s.sz) := by
  by_cases harg : LinksArg arg0
  · obtain ⟨r, hl⟩ := linkImage_of_links harg h
    exact linkFrom_shape hl
  · rw [(linkImage_of_not_needs (fun hc => harg hc.1) h).2]

theorem linkImage_length (h : linkImage L m d arg0 p = .ok (m₂, shared)) :
    shared.length = p.shared.length := by
  simpa using congrArg List.length (linkImage_shape h)

/-! ## What `exec` does to the system -/

/-- **A failed `exec`**, as far as memory and the other slots go. -/
structure ExecFailed (k k' : Kernel) (c : Slot) : Prop where
  moves : k.mem.Moves [] k'.mem []
  vmfreed : k'.mem.vmfreed = k.mem.vmfreed ∨ ∃ d ∈ k.mem.free, k'.mem.vmfreed = d :: k.mem.vmfreed
  proc : ∃ shared, shared.length = (k.proc c).shared.length
    ∧ k' = { k with mem := k'.mem }.setProc c { k.proc c with shared := shared }

/-- **A successful `exec`**: a new directory out of free frames takes the place of the old one, which
is freed; its shared area shows what was linked. -/
structure Execd (L : Linker) (k k' : Kernel) (c : Slot) (a : ExecArgs) : Prop where
  moves : k.mem.Moves (owned k.mem (k.proc c).pgdir) k'.mem (owned k'.mem (k'.proc c).pgdir)
  taken : (k'.proc c).pgdir ∈ k.mem.free
  size : (k'.proc c).sz < SHAREBASE
  low : ∀ v, v < (k'.proc c).pages → Present (entry k'.mem (k'.proc c).pgdir v)
  gap : Gap k'.mem (k'.proc c).pgdir (k'.proc c).pages
  shared : ∀ v, 0x40000 ≤ v → v < 0x80000 → Present (entry k'.mem (k'.proc c).pgdir v) →
    NeedsLink (k.proc c) a.arg0 ∧ LinkedFrom (entry k.mem (k.proc c).parentpgdir)
      (entry k'.mem (k'.proc c).pgdir) 6 (k.proc c).shared v
  vmfreed : k'.mem.vmfreed = (k.proc c).pgdir :: k.mem.vmfreed
  proc : ∃ i shared sz sp, shared.length = (k.proc c).shared.length
    ∧ k' = { k with mem := k'.mem }.setProc c (commit (k.proc c) a i shared sz sp)

theorem ExecFailed.other (hf : ExecFailed k k' c) {s : Slot} (hne : s ≠ c) :
    k'.proc s = k.proc s := by
  obtain ⟨shared, -, hp⟩ := hf.proc
  rw [hp, Kernel.setProc_proc_of_ne _ _ _ hne]

theorem ExecFailed.trade (h : Core L k) (hf : ExecFailed k k' c) : Trade k k' c [] := by
  obtain ⟨shared, hlen, hp⟩ := hf.proc
  have hself : k'.proc c = { k.proc c with shared := shared } := by
    rw [hp, Kernel.setProc_proc_self]
  refine h.spared hf.moves (fun s hs => .of_eq (hf.other hs)) ?_ (fun _ => ?_) ?_
  · rw [hself]
    exact Iff.rfl
  · rw [hself]
    exact ⟨rfl, rfl, rfl⟩
  · rw [hself]
    exact hlen

namespace Execd

variable (he : Execd L k k' c a)
include he

theorem other {s : Slot} (hne : s ≠ c) : k'.proc s = k.proc s := by
  obtain ⟨i, shared, sz, sp, -, hp⟩ := he.proc
  rw [hp, Kernel.setProc_proc_of_ne _ _ _ hne]

/-- What a committed process keeps. -/
theorem own : (k'.proc c).kstack = (k.proc c).kstack ∧ (k'.proc c).state = (k.proc c).state
    ∧ (k'.proc c).parentpgdir = (k.proc c).parentpgdir
    ∧ (k'.proc c).shared.length = (k.proc c).shared.length := by
  obtain ⟨i, shared, sz, sp, hlen, hp⟩ := he.proc
  rw [hp, Kernel.setProc_proc_self]
  exact ⟨rfl, rfl, rfl, hlen⟩

theorem live (hl : (k.proc c).Live) : (k'.proc c).Live := by rwa [Proc.Live, he.own.2.1]

theorem trade (h : Core L k) (hl : (k.proc c).Live) : Trade k k' c [] := by
  refine ⟨?_, fun s hs => .of_eq (he.other hs), fun _ => he.size, fun _ => he.gap,
    he.own.2.2.2.trans (h.table c)⟩
  rw [hold_of_live hl, hold_of_live (he.live hl), List.append_nil, he.own.1]
  exact he.moves.extend_left [(k.proc c).kstack]

end Execd

/-- **Replacing an image**: the old directory is freed with the new one standing by. -/
theorem Image.replace {m m₃ : Mem} {d sz old : Nat} {up : Nat → Nat} (him : Image m m₃ d sz up)
    (hn : (m.free ++ owned m old).Nodup) (hL : ∀ f ∈ m.free ++ owned m old, L.Frame f)
    {m₄ : Mem} (hfree : Xv6.freevm L m₃ old = .ok m₄) :
    m.Moves (owned m old) m₄ (owned m₄ d) ∧ entry m₄ d = entry m₃ d
      ∧ m₄.vmfreed = old :: m.vmfreed := by
  have hheld : ∀ f ∈ owned m old, f ∉ m.free := fun f hf hc =>
    List.disjoint_of_nodup_append hn hc hf
  have hold : owned m₃ old = owned m old :=
    owned_congr fun f hf => him.cell_of_held (hheld f (List.mem_append_left _ hf))
  have hmove : m.Moves (owned m old) m₃ (owned m₃ d ++ owned m old) := by
    have := him.moves.extend (owned m old)
    rwa [List.nil_append] at this
  have hn₃ : (m₃.free ++ (owned m₃ d ++ owned m₃ old)).Nodup := by
    rw [hold]
    exact hmove.nodup hn
  have hn₃' : (m₃.free ++ owned m₃ old).Nodup :=
    hn₃.sublist ((List.sublist_append_right _ _).append_left _)
  obtain ⟨m₄', hr, hmove₄, hvm⟩ := freevm_spec hn₃' fun f hf => by
    rw [hold] at hf
    exact hL f (List.mem_append_right _ hf)
  obtain rfl : m₄' = m₄ := Except.ok.inj (hr.symm.trans hfree)
  have hcell : ∀ f ∈ owned m₃ d, m₄'.cell f = m₃.cell f := fun f hf =>
    hmove₄.cell_of_bystander (hn₃.perm (List.perm_append_comm.append_left _)) hf
  have hown : owned m₄' d = owned m₃ d := owned_congr fun f hf =>
    hcell f (List.mem_append_left _ hf)
  refine ⟨?_, entry_congr fun f hf => hcell f (List.mem_append_left _ hf), by rw [hvm, him.vmfreed]⟩
  rw [hown]
  have hlast := hmove₄.extend_left (owned m₃ d)
  rw [List.append_nil, hold] at hlast
  exact hmove.trans hlast

/-- **What `exec` can do**, when linking is safe or not needed. -/
theorem exec_spec (h : Core L k) (hl : (k.proc c).Live)
    (hargs : ∀ arg ∈ a.argv, arg.length < SHAREBASE)
    (hready : NeedsLink (k.proc c) a.arg0 → LinkReady k.mem (k.proc c) a.file)
    (hok : exec L k c a = .ok (r, k')) :
    (r = -1 ∧ ExecFailed k k' c) ∨ (r = 0 ∧ Execd L k k' c a) := by
  have hn := h.free_nodup
  have hL := h.free_frame
  rcases exec_inv hok with ⟨m, hload, rfl, rfl⟩ | ⟨i, m₁, m₂, shared, hload, hlink, hrest⟩
  · rcases load_cases hn hL a.file with ⟨i, m', prog, -, hr, -⟩ | ⟨m', hr, hmove, hvm⟩
    · rw [hload] at hr
      simp at hr
    · obtain rfl : m = m' := by simpa [hload] using hr
      refine .inl ⟨rfl, hmove, hvm, (k.proc c).shared, rfl, ?_⟩
      simp only [Kernel.setProc, Function.update_eq_self]
  · rcases load_cases hn hL a.file with ⟨i', m', prog, hfile, hr, hsz, him, ht, -⟩ | ⟨m', hr, -⟩
    case inr =>
      rw [hload] at hr
      simp at hr
    obtain ⟨rfl, rfl⟩ : i = i' ∧ m₁ = m' := by simpa [hload] using hr
    have hout := linkImage_outcome hn him ht (by rw [hsz, hfile]; rfl) (h.table c) hready hlink
    have hlen := linkImage_length hlink
    rcases hrest with ⟨m₃, hpush, rfl, rfl⟩ | ⟨sz, sp, m₃, m₄, hpush, hfree, rfl, rfl⟩
    · obtain ⟨-, ⟨⟩, -⟩ | ⟨-, hmove, hvm⟩ := pushStack_spec hn hL hout.image hout.not_user hargs hpush
      exact .inl ⟨rfl, hmove, .inr ⟨_, him.taken, hvm⟩, shared, hlen, rfl⟩
    · obtain ⟨sp', ⟨⟩, hend, him₃⟩ | ⟨⟨⟩, -⟩ := pushStack_spec hn hL hout.image hout.not_user hargs hpush
      · obtain ⟨hmove, hent, hvm⟩ := him₃.replace (h.free_owned_nodup hl) (h.owned_frame hl) hfree
        refine .inr ⟨rfl, ?_⟩
        have hproc : ({ k with mem := m₄ }.setProc c (commit (k.proc c) a i shared
          (pgRoundUp i.sz + 8192) sp)).proc c = commit (k.proc c) a i shared
            (pgRoundUp i.sz + 8192) sp := Kernel.setProc_proc_self ..
        refine ⟨?_, ?_, ?_, ?_, ?_, ?_, hvm, i, shared, _, sp, hlen, rfl⟩
        · rw [hproc]
          exact hmove
        · rw [hproc]
          exact him.taken
        · rw [hproc]
          exact hend
        · rw [hproc]
          change ∀ v, _ → Present (entry m₄ i.pgdir v)
          rw [hent]
          exact him₃.low
        · rw [hproc]
          change Gap m₄ i.pgdir _
          rw [Gap, hent]
          exact him₃.gap
        · rw [hproc]
          change ∀ v, _ → _ → Present (entry m₄ i.pgdir v) → _ ∧ LinkedFrom _ (entry m₄ i.pgdir) _ _ _
          intro v hv hv' hp
          have hsame : entry m₃ i.pgdir v = entry m₂ i.pgdir v := him₃.upper v hv
          rw [hent, hsame] at hp
          obtain ⟨hneed, s, hs, j, hj, hpres, hval⟩ := hout.shared v hv hv' hp
          refine ⟨hneed, s, hs, j, hj, hpres, ?_⟩
          rw [hent, hsame, hval]

end Xv6
