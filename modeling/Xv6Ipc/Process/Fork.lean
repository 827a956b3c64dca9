import Xv6Ipc.Memory.Copyuvm
import Xv6Ipc.Process.Books
import Xv6Ipc.Sharing.Table

/-!
# Process/Fork — a new process out of an old one

`fork` takes five things one after the other — a slot, a kernel stack, a copy of the pages, references
to the open files and the current directory, and last the entries of `shared[]`:

    slot ─ kstack ─ copyuvm ─ files, cwd ─ shared[]
     │       │         │                      │ no end of the table in sight:
     └───────┴─────────┴── given back         └── only the stack is given back

-/

namespace Xv6

open Function

/-- `allocproc`: the first `UNUSED` slot, with a kernel stack. -/
def allocproc (k : Kernel) : Option Slot × Kernel :=
  match (List.finRange NPROC).find? fun c => (k.proc c).state = .unused with
  | none => (none, k)
  | some q =>
    let p := { k.proc q with state := .embryo, pid := k.nextpid }
    let k := { k with nextpid := k.nextpid + 1 }
    match kalloc k.mem with
    | (none, m) => (none, { k with mem := m }.setProc q { p with kstack := 0, state := .unused })
    | (some f, m) =>
      (some q, { k with mem := m }.setProc q
        { p with kstack := f, shared := p.shared.map Shared.clear })

/-- One turn of the loop of `fork` over the open files. -/
def dupFile (ofile : Fin NOFILE → Option Nat) (st : Kernel × (Fin NOFILE → Option Nat))
    (fd : Fin NOFILE) : Except Panic (Kernel × (Fin NOFILE → Option Nat)) :=
  match ofile fd with
  | none => .ok st
  | some f =>
    match filedup st.1 f with
    | .error e => .error e
    | .ok k => .ok (k, update st.2 fd (some f))

/-- The loop of `fork` over `shared[]`, from the parent's entries into the child's; `false` when it
comes past the last entry. -/
def copyShared : List Shared → List Shared → Bool × List Shared
  | [], np => (false, np)
  | s :: cur, np =>
    if s.sz = 0 then (true, np)
    else ((copyShared cur np.tail).1, s :: (copyShared cur np.tail).2)

/-- `fork`, from where the pages are copied to the directory `d`. -/
def forkFiles (L : Linker) (k : Kernel) (c q : Slot) (d : Nat) : Except Panic (Int × Kernel) :=
  let cur := k.proc c
  let np := { k.proc q with
    pgdir := d, sz := cur.sz, parent := some c, tf := { cur.tf with eax := 0 }
    parentpgdir := cur.pgdir }
  match (List.finRange NOFILE).foldlM (dupFile cur.ofile) (k, np.ofile) with
  | .error e => .error e
  | .ok (k, ofile) =>
    match cur.cwd with
    | none => .error .nullDeref
    | some ip =>
      let k := idup k ip
      let table := copyShared cur.shared np.shared
      let np := { np with ofile := ofile, cwd := some ip, shared := table.2 }
      if table.1 = false then
        match kfree L k.mem np.kstack with
        | .error e => .error e
        | .ok m => .ok (-1, { k with mem := m }.setProc q { np with kstack := 0, state := .unused })
      else
        .ok (np.pid, k.setProc q { np with name := safestrcpy cur.name 16, state := .runnable })

/-- `fork`. -/
def fork (L : Linker) (k : Kernel) (c : Slot) : Except Panic (Int × Kernel) :=
  match allocproc k with
  | (none, k) => .ok (-1, k)
  | (some q, k) =>
    match copyuvm L k.mem (k.proc c).pgdir (k.proc c).sz with
    | .error e => .error e
    | .ok (none, m) =>
      match kfree L m (k.proc q).kstack with
      | .error e => .error e
      | .ok m =>
        .ok (-1, { k with mem := m }.setProc q
          { k.proc q with pgdir := 0, kstack := 0, state := .unused })
    | .ok (some d, m) => forkFiles L { k with mem := m } c q d

variable {L : Linker} {k k' : Kernel} {c q : Slot} {r : Int}

/-! ## The parts -/

/-- The slot `allocproc` takes. -/
def firstUnused (k : Kernel) : Option Slot :=
  (List.finRange NPROC).find? fun c => (k.proc c).state = .unused

/-- The child's slot as `allocproc` leaves it. -/
def embryo (k : Kernel) (q : Slot) (f : Nat) : Proc :=
  { k.proc q with
    state := .embryo, pid := k.nextpid, kstack := f
    shared := (k.proc q).shared.map Shared.clear }

/-- **`allocproc`**: no slot, no memory, or a slot with a stack. -/
theorem allocproc_cases (k : Kernel) :
    (∀ q, (k.proc q).state ≠ .unused) ∧ allocproc k = (none, k) ∨
      (∃ q, (k.proc q).state = .unused ∧ k.mem.free = [] ∧ allocproc k = (none,
        { k with nextpid := k.nextpid + 1 }.setProc q
          { k.proc q with pid := k.nextpid, kstack := 0, state := .unused })) ∨
      ∃ q f m, (k.proc q).state = .unused ∧ firstUnused k = some q
        ∧ kalloc k.mem = (some f, m) ∧ allocproc k = (some q,
        { k with mem := m, nextpid := k.nextpid + 1 }.setProc q (embryo k q f)) := by
  rw [allocproc]
  cases hfind : (List.finRange NPROC).find? fun c => (k.proc c).state = .unused with
  | none => exact .inl ⟨fun q hq => by simpa [hq] using List.find?_eq_none.mp hfind q, rfl⟩
  | some q =>
    have hq : (k.proc q).state = .unused := by simpa using List.find?_some hfind
    rcases kalloc_cases k.mem with ⟨hfree, hk⟩ | ⟨f, fs, -, hk⟩
    · refine .inr (.inl ⟨q, hq, hfree, ?_⟩)
      simp only [hk]
    · refine .inr (.inr ⟨q, f, _, hq, hfind, hk, ?_⟩)
      simp only [hk]
      rfl

/-- The child's descriptors: the parent's, and where the parent has none, what the slot had. -/
def inherit (cur np : Fin NOFILE → Option Nat) : Fin NOFILE → Option Nat := fun fd =>
  (cur fd).or (np fd)

/-- **One turn of the loop over the files**: the descriptor becomes the parent's, if it has one. -/
theorem dupFile_cases (ofile of : Fin NOFILE → Option Nat) (fd : Fin NOFILE) :
    (∃ file, dupFile ofile (k, of) fd
        = .ok ({ k with file := file }, update of fd ((ofile fd).or (of fd)))
        ∧ ∀ f, (k.file f).ref ≤ (file f).ref) ∨
      dupFile ofile (k, of) fd = .error .filedup ∧ ∃ f, ofile fd = some f ∧ (k.file f).ref < 1 := by
  rw [dupFile]
  cases hfd : ofile fd with
  | none => exact .inl ⟨k.file, by rw [Option.none_or, update_eq_self], fun _ => le_rfl⟩
  | some f =>
    simp only [filedup]
    by_cases href : (k.file f).ref < 1
    · rw [if_pos href]
      exact .inr ⟨rfl, f, rfl, href⟩
    · rw [if_neg href]
      refine .inl ⟨_, rfl, (forall_update_iff k.file fun g x => (k.file g).ref ≤ x.ref).mpr ?_⟩
      exact ⟨Nat.le_succ _, fun _ _ => le_rfl⟩

/-- …and the whole loop. -/
theorem dupFiles_cases (ofile of : Fin NOFILE → Option Nat) (l : List (Fin NOFILE)) :
    (∃ file of', l.foldlM (dupFile ofile) (k, of) = .ok ({ k with file := file }, of')
        ∧ ∀ fd, (fd ∈ l → of' fd = (ofile fd).or (of fd)) ∧ (fd ∉ l → of' fd = of fd)) ∨
      l.foldlM (dupFile ofile) (k, of) = .error .filedup
        ∧ ∃ fd f, ofile fd = some f ∧ (k.file f).ref < 1 := by
  induction l generalizing k of with
  | nil => exact .inl ⟨k.file, of, rfl, fun fd => ⟨fun h => absurd h List.not_mem_nil, fun _ => rfl⟩⟩
  | cons a l ih =>
    rw [List.foldlM_cons]
    rcases dupFile_cases (k := k) ofile of a with ⟨file, hd, hle⟩ | ⟨hd, hf⟩
    · rw [hd]
      refine (ih (k := { k with file := file }) (update of a ((ofile a).or (of a)))).imp
        (fun ⟨file', of', hl, hof⟩ => ⟨file', of', hl, fun fd => ?_⟩)
        (And.imp_right fun ⟨fd, f, hf, href⟩ => ⟨fd, f, hf, lt_of_le_of_lt (hle f) href⟩)
      specialize hof fd
      by_cases hfd : fd = a
      · subst hfd
        refine ⟨fun _ => ?_, fun h => absurd List.mem_cons_self h⟩
        rw [update_self] at hof
        by_cases hmem : fd ∈ l
        · rw [hof.1 hmem]
          cases ofile fd <;> rfl
        · exact hof.2 hmem
      · rw [update_of_ne hfd] at hof
        simpa only [List.mem_cons, hfd, false_or] using hof
    · rw [hd]
      exact .inr ⟨rfl, a, hf⟩

/-- **The loop over `shared[]`**: it finds the end of the table exactly if there is one, and copies
the regions before it. -/
theorem copyShared_spec (cur np : List Shared) (hlen : np.length = cur.length) :
    ((copyShared cur np).1 = true ↔ ∃ s ∈ cur, s.sz = 0)
      ∧ (copyShared cur np).2 = regions cur ++ np.drop (regions cur).length := by
  induction cur generalizing np with
  | nil => exact ⟨by simp [copyShared], rfl⟩
  | cons s cur ih =>
    rw [copyShared]
    by_cases hs : s.sz = 0
    · rw [if_pos hs]
      exact ⟨by simp [hs], by simp [regions, hs]⟩
    · obtain ⟨n, np, rfl⟩ := List.exists_cons_of_length_eq_add_one hlen
      obtain ⟨hfst, hsnd⟩ := ih np (by simpa using hlen)
      rw [if_neg hs, regions_cons hs]
      refine ⟨?_, ?_⟩
      · simp only [List.tail_cons, hfst, List.mem_cons, exists_eq_or_imp, hs, false_or]
      · simp only [List.tail_cons, hsnd, List.cons_append, List.length_cons, List.drop_succ_cons]

/-! ## What `fork` does to the system -/

/-- **A `fork` that fails and gives back what it took**: one `UNUSED` slot may have got another
`pid`, and lost its directory and regions. -/
structure ForkFailed (k k' : Kernel) : Prop where
  moves : k.mem.Moves [] k'.mem []
  vmfreed : k'.mem.vmfreed = k.mem.vmfreed ∨ ∃ d ∈ k.mem.free, k'.mem.vmfreed = d :: k.mem.vmfreed
  proc : k'.proc = k.proc ∨ ∃ q pgdir shared, (k.proc q).state = .unused
    ∧ shared.length = (k.proc q).shared.length
    ∧ k'.proc = update k.proc q
      { k.proc q with
        pid := k.nextpid, kstack := 0, state := .unused, pgdir := pgdir, shared := shared }
  file : k'.file = k.file
  iref : k'.iref = k.iref
  initproc : k'.initproc = k.initproc

/-- **A `fork` that fails at the tenth region** keeps everything but the kernel stack. -/
structure ForkLeaked (k k' : Kernel) (c q : Slot) : Prop where
  full : ∀ s ∈ (k.proc c).shared, s.sz ≠ 0
  unused : (k.proc q).state = .unused
  other : ∀ s, s ≠ q → k'.proc s = k.proc s
  moves : k.mem.Moves [] k'.mem (owned k'.mem (k'.proc q).pgdir)
  vmfreed : k'.mem.vmfreed = k.mem.vmfreed
  state : (k'.proc q).state = .unused
  parent : (k'.proc q).parent = some c
  table : (k'.proc q).shared.length = (k.proc q).shared.length
  initproc : k'.initproc = k.initproc

/-- **A `fork` that succeeds**: the child has the parent's size and regions, its own pages, and the
parent's directory as `parentpgdir`. -/
structure Forked (k k' : Kernel) (c q : Slot) : Prop where
  unused : (k.proc q).state = .unused
  first : firstUnused k = some q
  other : ∀ s, s ≠ q → k'.proc s = k.proc s
  moves : k.mem.Moves [] k'.mem (hold k'.mem (k'.proc q))
  vmfreed : k'.mem.vmfreed = k.mem.vmfreed
  state : (k'.proc q).state = .runnable
  sz : (k'.proc q).sz = (k.proc c).sz
  parent : (k'.proc q).parent = some c
  parentpgdir : (k'.proc q).parentpgdir = (k.proc c).pgdir
  pid : (k'.proc q).pid = k.nextpid
  ofile : (k'.proc q).ofile = inherit (k.proc c).ofile (k.proc q).ofile
  cwd : (k'.proc q).cwd = (k.proc c).cwd
  shared : (k'.proc q).shared
    = (copyShared (k.proc c).shared ((k.proc q).shared.map Shared.clear)).2
  regions : regions (k'.proc q).shared = regions (k.proc c).shared
  table : (k'.proc q).shared.length = MAXSHARED
  low : ∀ v, v < (k.proc c).pages → Present (entry k'.mem (k'.proc q).pgdir v)
  copied : ∀ v, v < (k.proc c).pages → ∃ f, entry k'.mem (k'.proc q).pgdir v
    = mkPte (4096 * f) (copyPerm k.mem (k.proc c).pgdir v)
    ∧ k'.mem.cell f = copyCell k.mem (k.proc c).pgdir v
  rest : ∀ v, (k.proc c).pages ≤ v → v < 0x80000 → entry k'.mem (k'.proc q).pgdir v = 0
  taken : (k'.proc q).pgdir ∈ k.mem.free
  initproc : k'.initproc = k.initproc

/-- Only `UNUSED` slots are written, so the trade is not that of a live one. -/
theorem ForkFailed.trade (h : Core L k) (hl : (k.proc c).Live) (hf : ForkFailed k k') :
    ∃ q, c ≠ q ∧ Trade k k' q [] := by
  rcases hf.proc with hp | ⟨q, pgdir, shared, hq, hlen, hp⟩
  · obtain ⟨q, hq⟩ := exists_slot_ne c
    exact ⟨q, hq.symm, h.spared hf.moves (fun c _ => .of_eq (by rw [hp])) (by rw [hp])
      (fun _ => by rw [hp]; exact ⟨rfl, rfl, rfl⟩) (by rw [hp])⟩
  · have hdead : ¬ (k.proc q).Live := not_not.mpr hq
    refine ⟨q, fun he => hdead (he ▸ hl),
      h.spared hf.moves (fun c hne => .of_eq ?_) ?_ (fun hl => absurd hl hdead) ?_⟩
    · rw [hp, update_of_ne hne]
    · rw [hp, update_self]
      exact iff_of_false (not_not.mpr rfl) hdead
    · rw [hp, update_self]
      exact hlen

theorem ForkFailed.same_of_live (hf : ForkFailed k k') {s : Slot} (hs : (k'.proc s).Live) :
    k'.proc s = k.proc s := by
  rcases hf.proc with hp | ⟨q, pgdir, shared, -, -, hp⟩
  · rw [hp]
  · rw [hp] at hs ⊢
    by_cases hsq : s = q
    · subst hsq
      rw [update_self] at hs
      exact absurd rfl hs
    · rw [update_of_ne hsq]

theorem ForkLeaked.trade (h : Core L k) (hf : ForkLeaked k k' c q) :
    Trade k k' q (owned k'.mem (k'.proc q).pgdir) := by
  refine ⟨?_, fun s hs => .of_eq (hf.other s hs), fun hl => absurd hf.state hl,
    fun hl => absurd hf.state hl, hf.table.trans (h.table q)⟩
  rw [hold_of_unused hf.unused, hold_of_unused hf.state, List.nil_append]
  exact hf.moves

theorem Forked.live (hf : Forked k k' c q) : (k'.proc q).Live := by simp [Proc.Live, hf.state]

theorem Forked.pages (hf : Forked k k' c q) : (k'.proc q).pages = (k.proc c).pages := by
  rw [Proc.pages, Proc.pages, hf.sz]

theorem Forked.trade (h : Core L k) (hl : (k.proc c).Live) (hf : Forked k k' c q) :
    Trade k k' q [] := by
  refine ⟨?_, fun s hs => .of_eq (hf.other s hs), fun _ => ?_, fun _ v hv hv' => ?_, hf.table⟩
  · rw [hold_of_unused hf.unused, List.append_nil]
    exact hf.moves
  · rw [hf.sz]
    exact h.size c hl
  · rw [hf.pages] at hv
    rw [hf.rest v hv (by omega)]
    exact not_present_zero

/-- Free entries after the regions of a table are no regions. -/
theorem regions_append_clear (l np : List Shared) :
    regions (regions l ++ np.map Shared.clear) = regions l := by
  have hnone : regions (np.map Shared.clear) = [] := by
    cases np with
    | nil => rfl
    | cons s np => simp [regions, Shared.clear]
  induction l with
  | nil => exact hnone
  | cons s l ih =>
    by_cases hs : s.sz = 0
    · have hnil : regions (s :: l) = [] := by simp [regions, hs]
      rw [hnil]
      exact hnone
    · rw [regions_cons hs, List.cons_append, regions_cons hs, ih]

/-- The child's table. -/
theorem copyShared_clear {cur np : List Shared} (hlen : np.length = cur.length) :
    regions (copyShared cur (np.map Shared.clear)).2 = regions cur
      ∧ (copyShared cur (np.map Shared.clear)).2.length = cur.length := by
  have hle : (regions cur).length ≤ cur.length := (List.takeWhile_sublist _).length_le
  rw [(copyShared_spec _ _ (by simpa using hlen)).2, ← List.map_drop]
  refine ⟨regions_append_clear _ _, ?_⟩
  rw [List.length_append, List.length_map, List.length_drop]
  omega

section Parts

variable {m₁ m₂ m₃ : Mem} {f d n : Nat}

/-- Giving the stack back after the copy failed. -/
theorem moves_of_copy_failed (hk : kalloc k.mem = (some f, m₁)) (hcopy : m₁.Moves [] m₂ [])
    (hfree : kfree L m₂ f = .ok m₃) : k.mem.Moves [] m₃ [] :=
  ((moves_kalloc hk).1.trans (hcopy.extend [f])).trans (moves_kfree hfree).2.1

/-- The stack and the copy. -/
theorem moves_of_copied {s : Nat} (hk : kalloc k.mem = (some f, m₁)) (hcopy : Copied m₁ m₂ s d n) :
    k.mem.Moves [] m₂ (f :: owned m₂ d) :=
  ((moves_kalloc hk).1.trans (hcopy.moves.extend [f])).congr (List.Perm.refl _)
    (List.perm_append_singleton f _)

/-- Giving back the stack alone. -/
theorem moves_of_leaked {s : Nat} (h : Core L k) (hk : kalloc k.mem = (some f, m₁))
    (hcopy : Copied m₁ m₂ s d n) (hfree : kfree L m₂ f = .ok m₃) :
    k.mem.Moves [] m₃ (owned m₃ d) := by
  have hmove := moves_of_copied hk hcopy
  have hn : (m₂.free ++ ([f] ++ owned m₂ d)).Nodup := hmove.nodup (by simpa using h.free_nodup)
  have hback := (moves_kfree hfree).2.1
  have hown : owned m₃ d = owned m₂ d := owned_congr fun g hg =>
    hback.cell_of_bystander hn (List.mem_append_left _ hg)
  have hlast := hback.extend (owned m₂ d)
  rw [List.nil_append] at hlast
  rw [hown]
  exact hmove.trans hlast

end Parts

/-- **Copying the pages of a process**, once the stack is taken. -/
theorem Core.copyuvm_cases {f : Nat} {m₁ : Mem} (h : Core L k) (hl : (k.proc c).Live)
    (hk : kalloc k.mem = (some f, m₁)) :
    (∃ m₂ d, copyuvm L m₁ (k.proc c).pgdir (k.proc c).sz = .ok (some d, m₂)
        ∧ Copied m₁ m₂ (k.proc c).pgdir d (k.proc c).pages ∧ d ∈ k.mem.free
        ∧ m₂.vmfreed = k.mem.vmfreed
        ∧ ∀ v, v < (k.proc c).pages → Present (entry k.mem (k.proc c).pgdir v)) ∨
      (∃ m₂, copyuvm L m₁ (k.proc c).pgdir (k.proc c).sz = .ok (none, m₂) ∧ m₁.Moves [] m₂ []
        ∧ k.mem.free.length ≤ imageFrames (k.proc c).pages + 1
        ∧ (m₂.vmfreed = k.mem.vmfreed ∨ ∃ d ∈ k.mem.free, m₂.vmfreed = d :: k.mem.vmfreed)) ∨
      (copyuvm L m₁ (k.proc c).pgdir (k.proc c).sz = .error .copyuvm
        ∧ ∃ v < (k.proc c).pages, ¬ Present (entry k.mem (k.proc c).pgdir v)) := by
  obtain ⟨hpop, -, hcell, hvm⟩ := moves_kalloc hk
  have hlen : k.mem.free.length = m₁.free.length + 1 := by simpa using hpop.length
  have hsub : ∀ g ∈ m₁.free, g ∈ k.mem.free := fun g hg => by simpa using hpop.mem_iff.mp (.inl hg)
  have hn : m₁.free.Nodup := (List.nodup_append.mp (hpop.nodup (by simpa using h.free_nodup))).1
  have hsame : ∀ g, m₁.cell g = k.mem.cell g := congrFun hcell
  have hent : entry m₁ (k.proc c).pgdir = entry k.mem (k.proc c).pgdir :=
    entry_congr fun g _ => hsame g
  have hheld : ∀ g ∈ owned m₁ (k.proc c).pgdir, g ∉ m₁.free := fun g hg hc => by
    rw [owned_congr fun g _ => hsame g] at hg
    exact h.not_free (mem_hold_of_owned hl hg) (hsub g hc)
  rcases Xv6.copyuvm_cases hn (fun g hg => h.free_frame g (hsub g hg)) hheld (k.proc c).sz with
    ⟨m₂, d, hr, hcopy⟩ | ⟨m₂, hr, hmove, hshort, hvm₂⟩ | ⟨hr, v, hv, hp⟩
  · refine .inl ⟨m₂, d, hr, hcopy, hsub d hcopy.taken, hcopy.vmfreed.trans hvm, ?_⟩
    rw [← hent]
    exact hcopy.source
  · refine .inr (.inl ⟨m₂, hr, hmove, ?_, ?_⟩)
    · rw [hlen]
      exact Nat.add_le_add_right hshort 1
    · rw [← hvm]
      exact hvm₂.imp_right fun ⟨d, hd, hv⟩ => ⟨d, hsub d hd, hv⟩
  · rw [hent] at hp
    exact .inr (.inr ⟨hr, v, hv, hp⟩)

/-- What `allocproc` has taken. -/
structure Allocated (k : Kernel) (q : Slot) (f : Nat) (m : Mem) : Prop where
  unused : (k.proc q).state = .unused
  first : firstUnused k = some q
  stack : kalloc k.mem = (some f, m)

/-- The child, with a copy of the pages in `d`, before it is made `RUNNABLE` or given up. -/
def child (k : Kernel) (c q : Slot) (f d : Nat) : Proc :=
  { embryo k q f with
    pgdir := d, sz := (k.proc c).sz, parent := some c, tf := { (k.proc c).tf with eax := 0 }
    parentpgdir := (k.proc c).pgdir, ofile := inherit (k.proc c).ofile (k.proc q).ofile
    cwd := (k.proc c).cwd
    shared := (copyShared (k.proc c).shared ((k.proc q).shared.map Shared.clear)).2 }

/-- What the part of `fork` after the copy relies on. -/
def Sane (L : Linker) (k : Kernel) (c : Slot) (f : Nat) : Prop :=
  L.Frame f ∧ (∀ fd g, (k.proc c).ofile fd = some g → 1 ≤ (k.file g).ref) ∧ (k.proc c).cwd ≠ none

/-- **How `fork` ends**: its answer and the kernel it leaves, or the panic. -/
inductive ForkEnds (L : Linker) (k : Kernel) (c : Slot) : Except Panic (Int × Kernel) → Prop
  | full : (∀ q, (k.proc q).state ≠ .unused) → ForkEnds L k c (.ok (-1, k))
  | stackless {q : Slot} : (k.proc q).state = .unused → k.mem.free = [] → ForkEnds L k c (.ok (-1,
      { k with nextpid := k.nextpid + 1 }.setProc q
        { k.proc q with pid := k.nextpid, kstack := 0, state := .unused }))
  | missing {q : Slot} {f m₁ e} : Allocated k q f m₁ →
      copyuvm L m₁ (k.proc c).pgdir (k.proc c).sz = .error e → ForkEnds L k c (.error e)
  | stopped {q : Slot} {f m₁ x e} : Allocated k q f m₁ →
      copyuvm L m₁ (k.proc c).pgdir (k.proc c).sz = .ok x → e ≠ .copyuvm → ¬ Sane L k c f →
      ForkEnds L k c (.error e)
  | failed {q : Slot} {f m₁ m₂ m₃} : Allocated k q f m₁ →
      copyuvm L m₁ (k.proc c).pgdir (k.proc c).sz = .ok (none, m₂) → kfree L m₂ f = .ok m₃ →
      ForkEnds L k c (.ok (-1, { k with mem := m₃, nextpid := k.nextpid + 1 }.setProc q
        { embryo k q f with pgdir := 0, kstack := 0, state := .unused }))
  | leaked {q : Slot} {f m₁ m₂ m₃ d file iref} : Allocated k q f m₁ →
      copyuvm L m₁ (k.proc c).pgdir (k.proc c).sz = .ok (some d, m₂) →
      (copyShared (k.proc c).shared ((k.proc q).shared.map Shared.clear)).1 = false →
      kfree L m₂ f = .ok m₃ →
      ForkEnds L k c (.ok (-1, ⟨m₃, update k.proc q { child k c q f d with kstack := 0, state := .unused },
        file, iref, k.nextpid + 1, k.initproc⟩))
  | forked {q : Slot} {f m₁ m₂ d file iref} : Allocated k q f m₁ →
      copyuvm L m₁ (k.proc c).pgdir (k.proc c).sz = .ok (some d, m₂) →
      (copyShared (k.proc c).shared ((k.proc q).shared.map Shared.clear)).1 = true →
      ForkEnds L k c (.ok (k.nextpid, ⟨m₂, update k.proc q
        { child k c q f d with name := safestrcpy (k.proc c).name 16, state := .runnable },
        file, iref, k.nextpid + 1, k.initproc⟩))

theorem fork_ends (hl : (k.proc c).Live) : ForkEnds L k c (fork L k c) := by
  rw [fork]
  rcases allocproc_cases k with ⟨hused, ha⟩ | ⟨q, hq, hfree, ha⟩ | ⟨q, f, m₁, hq, hfirst, hk, ha⟩
  · rw [ha]
    exact .full hused
  · rw [ha]
    exact .stackless hq hfree
  have hcq : c ≠ q := fun he => hl (he ▸ hq)
  have halloc : Allocated k q f m₁ := ⟨hq, hfirst, hk⟩
  have hback : ∀ {m e}, kfree L m f = .error e → e ≠ .copyuvm ∧ ¬ Sane L k c f := fun {m e} he => by
    rw [kfree] at he
    split at he
    · cases he
    · rename_i hf
      exact ⟨fun hc => (by cases he.trans (congrArg _ hc)), fun hs => hf hs.1⟩
  rw [ha]
  simp only [Kernel.setProc_mem, Kernel.setProc_proc_self, Kernel.setProc_proc_of_ne _ _ _ hcq]
  rcases hcopy : copyuvm L m₁ (k.proc c).pgdir (k.proc c).sz with e | ⟨_ | d, m₂⟩
  · exact .missing halloc hcopy
  · cases hfree : kfree L m₂ f with
    | error e =>
      simp only [embryo, hfree]
      exact .stopped halloc hcopy (hback hfree).1 (hback hfree).2
    | ok m₃ =>
      simp only [embryo, hfree, Kernel.setProc, update_idem]
      exact .failed halloc hcopy hfree
  simp only [forkFiles, Kernel.setProc, update_self, update_of_ne hcq]
  rcases dupFiles_cases (k := ⟨m₂, update k.proc q (embryo k q f), k.file, k.iref, k.nextpid + 1, k.initproc⟩)
      (k.proc c).ofile (embryo k q f).ofile (List.finRange NOFILE) with
    ⟨file, of, hdup, hof⟩ | ⟨hdup, fd, g, hg, href⟩
  · obtain rfl : of = inherit (k.proc c).ofile (k.proc q).ofile :=
      funext fun fd => (hof fd).1 (List.mem_finRange fd)
    simp only [hdup]
    cases hcwd : (k.proc c).cwd with
    | none => exact .stopped halloc hcopy (by rintro ⟨⟩) fun hs => hs.2.2 hcwd
    | some ip =>
      simp only [← hcwd, idup, Kernel.setIref, update_idem]
      split
      · rename_i hend
        cases hfree : kfree L m₂ f with
        | error e =>
          simp only [embryo, hfree]
          exact .stopped halloc hcopy (hback hfree).1 (hback hfree).2
        | ok m₃ =>
          simp only [embryo, hfree]
          exact .leaked halloc hcopy hend hfree
      · rename_i hend
        exact .forked halloc hcopy (Bool.not_eq_false _ ▸ hend)
  · simp only [hdup]
    exact .stopped halloc hcopy (by rintro ⟨⟩) fun hs => absurd (hs.2.1 fd g hg) (not_le.mpr href)

/-- **What `fork` can do.** -/
theorem fork_spec (h : Core L k) (hl : (k.proc c).Live) (hok : fork L k c = .ok (r, k')) :
    (r = -1 ∧ ForkFailed k k') ∨ (r = -1 ∧ ∃ q, ForkLeaked k k' c q) ∨
      ∃ q, r = k.nextpid ∧ Forked k k' c q := by
  have hends := fork_ends (L := L) hl
  rw [hok] at hends
  have hlen : ∀ q, (k.proc q).shared.length = (k.proc c).shared.length := fun q =>
    (h.table q).trans (h.table c).symm
  cases hends with
  | full => exact .inl ⟨rfl, Heap.Moves.refl _ _, .inl rfl, .inl rfl, rfl, rfl, rfl⟩
  | @stackless q hq _ => exact .inl ⟨rfl, Heap.Moves.refl _ _, .inl rfl,
      .inr ⟨q, (k.proc q).pgdir, (k.proc q).shared, hq, rfl, rfl⟩, rfl, rfl, rfl⟩
  | @failed q f _ m₂ m₃ ha hcopy hfree =>
    obtain ⟨_, _, hr, -⟩ | ⟨_, hr, hmove, -, hvm⟩ | ⟨hr, -⟩ := h.copyuvm_cases hl ha.stack
    all_goals obtain ⟨⟩ := hr.symm.trans hcopy
    refine .inl ⟨rfl, moves_of_copy_failed ha.stack hmove hfree, ?_,
      .inr ⟨q, 0, _, ha.unused, List.length_map _, rfl⟩, rfl, rfl, rfl⟩
    rw [Kernel.setProc_mem, (moves_kfree hfree).2.2.2]
    exact hvm
  | @leaked q f _ m₂ m₃ d _ _ ha hcopy hend hfree =>
    obtain ⟨_, _, hr, hcopied, -, hvm, -⟩ | ⟨_, hr, -⟩ | ⟨hr, -⟩ := h.copyuvm_cases hl ha.stack
    all_goals obtain ⟨⟩ := hr.symm.trans hcopy
    refine .inr (.inl ⟨rfl, q, fun s hs hz => ?_, ha.unused, fun s hs => update_of_ne hs _ _, ?_,
      (moves_kfree hfree).2.2.2.trans hvm, ?_, ?_, ?_, rfl⟩)
    · rw [(copyShared_spec _ _ (by rw [List.length_map, hlen])).1.mpr ⟨s, hs, hz⟩] at hend
      exact nomatch hend
    all_goals simp only [update_self]
    · exact moves_of_leaked h ha.stack hcopied hfree
    · rfl
    · exact (copyShared_clear (hlen q)).2.trans (hlen q).symm
  | @forked q f _ m₂ d _ _ ha hcopy hend =>
    obtain ⟨_, _, hr, hcopied, htaken, hvm, -⟩ | ⟨_, hr, -⟩ | ⟨hr, -⟩ := h.copyuvm_cases hl ha.stack
    all_goals obtain ⟨⟩ := hr.symm.trans hcopy
    refine .inr (.inr ⟨q, rfl, ha.unused, ha.first, fun s hs => update_of_ne hs _ _, ?_, hvm, ?_, ?_, ?_, ?_,
      ?_, ?_, ?_, ?_, ?_, ?_, ?_, ?_, ?_, ?_, rfl⟩)
    all_goals simp only [update_self]
    · rw [hold_of_live (by simp [Proc.Live])]
      exact moves_of_copied ha.stack hcopied
    iterate 7 rfl
    · exact (copyShared_clear (hlen q)).1
    · exact (copyShared_clear (hlen q)).2.trans (h.table c)
    · intro v hv
      obtain ⟨g, hg, -⟩ := hcopied.page v hv
      change Present (entry m₂ d v)
      rw [hg]
      exact present_mkPte _ _
    · have hcell := (moves_kalloc ha.stack).2.2.1
      intro v hv
      obtain ⟨g, hg, hc⟩ := hcopied.page v hv
      rw [copyPerm, copyCell, entry_of_cell hcell, hcell] at *
      exact ⟨g, hg, hc⟩
    · exact hcopied.rest
    · exact htaken

/-! ## When it succeeds -/

section Room

variable (h : Core L k) (hl : (k.proc c).Live) (hslot : (k.proc q).state = .unused)
  (hmem : imageFrames (k.proc c).pages + 1 < k.mem.free.length)
include h hl hslot hmem

/-- **With a slot and memory**, `fork` panics over a missing page, or makes a child exactly if it finds the
end of the table. -/
theorem fork_with_room :
    (fork L k c = .error .copyuvm ∧ ∃ v < (k.proc c).pages, ¬ Present (entry k.mem (k.proc c).pgdir v)) ∨
      (∀ v < (k.proc c).pages, Present (entry k.mem (k.proc c).pgdir v))
        ∧ ((∀ fd f, (k.proc c).ofile fd = some f → 1 ≤ (k.file f).ref) → (k.proc c).cwd ≠ none →
          ((∃ s ∈ (k.proc c).shared, s.sz = 0) →
            ∃ k' q, fork L k c = .ok (k.nextpid, k') ∧ Forked k k' c q)
          ∧ ((∀ s ∈ (k.proc c).shared, s.sz ≠ 0) → ∃ k', fork L k c = .ok (-1, k'))) := by
  have hcopy : ∀ {q f m r}, Allocated k q f m → copyuvm L m (k.proc c).pgdir (k.proc c).sz = r →
      (r = .error .copyuvm ∧ ∃ v < (k.proc c).pages, ¬ Present (entry k.mem (k.proc c).pgdir v)) ∨
        (∀ v < (k.proc c).pages, Present (entry k.mem (k.proc c).pgdir v))
          ∧ ∃ m₂ d, r = .ok (some d, m₂) := fun ha hr => by
    rcases h.copyuvm_cases hl ha.stack with ⟨m₂, d, hr', -, -, -, hlow⟩ | ⟨-, -, -, hshort, -⟩ | ⟨hr', hp⟩
    · exact .inr ⟨hlow, m₂, d, hr.symm.trans hr'⟩
    · omega
    · exact .inl ⟨hr.symm.trans hr', hp⟩
  have htable : ∀ q, (copyShared (k.proc c).shared ((k.proc q).shared.map Shared.clear)).1 = true
      ↔ ∃ s ∈ (k.proc c).shared, s.sz = 0 := fun q =>
    (copyShared_spec _ _ (by rw [List.length_map, h.table, h.table])).1
  have hends := fork_ends (L := L) hl
  generalize hr : fork L k c = r at hends ⊢
  cases hends with
  | full hused => exact absurd hslot (hused q)
  | stackless _ hfree =>
    rw [hfree] at hmem
    exact absurd hmem (Nat.not_lt_zero _)
  | missing ha hc =>
    rcases hcopy ha hc with ⟨he, hp⟩ | ⟨-, _, _, he⟩
    · exact .inl ⟨congrArg _ (Except.error.inj he), hp⟩
    · exact nomatch he
  | stopped ha hc _ hstop =>
    rcases hcopy ha hc with ⟨he, -⟩ | ⟨hlow, -⟩
    · exact nomatch he
    · exact .inr ⟨hlow, fun hfiles hcwd =>
        absurd ⟨h.free_frame _ (moves_kalloc ha.stack).2.1, hfiles, hcwd⟩ hstop⟩
  | failed ha hc =>
    rcases hcopy ha hc with ⟨he, -⟩ | ⟨-, _, _, he⟩
    all_goals exact nomatch he
  | @leaked q _ _ _ _ _ _ _ ha hc hend =>
    rcases hcopy ha hc with ⟨he, -⟩ | ⟨hlow, -⟩
    · exact nomatch he
    · exact .inr ⟨hlow, fun _ _ =>
        ⟨fun hz => (nomatch hend.symm.trans ((htable q).mpr hz)), fun _ => ⟨_, rfl⟩⟩⟩
  | @forked q _ _ _ _ _ _ ha hc hend =>
    rcases hcopy ha hc with ⟨he, -⟩ | ⟨hlow, -⟩
    · exact nomatch he
    refine .inr ⟨hlow, fun _ _ => ⟨fun _ => ?_, fun hfull => ?_⟩⟩
    · rcases fork_spec h hl hr with ⟨hneg, -⟩ | ⟨hneg, -⟩ | ⟨q, -, hf⟩
      · omega
      · omega
      · exact ⟨_, q, rfl, hf⟩
    · obtain ⟨s, hs, hz⟩ := (htable q).mp hend
      exact absurd hz (hfull s hs)

/-- …if a page below `sz` is missing, it panics… -/
theorem fork_panics (hp : ∃ v < (k.proc c).pages, ¬ Present (entry k.mem (k.proc c).pgdir v)) :
    fork L k c = .error .copyuvm := by
  obtain ⟨v, hv, hp⟩ := hp
  exact (fork_with_room h hl hslot hmem).elim And.left fun hok => absurd (hok.1 v hv) hp

variable (hlow : ∀ v, v < (k.proc c).pages → Present (entry k.mem (k.proc c).pgdir v))
  (hfiles : ∀ fd f, (k.proc c).ofile fd = some f → 1 ≤ (k.file f).ref) (hcwd : (k.proc c).cwd ≠ none)
include hlow hfiles hcwd

/-- …**with an end of the table, it makes a child**… -/
theorem fork_of_room (hend : ∃ s ∈ (k.proc c).shared, s.sz = 0) :
    ∃ k' q, fork L k c = .ok (k.nextpid, k') ∧ Forked k k' c q :=
  (fork_with_room h hl hslot hmem).elim (fun ⟨_, v, hv, hp⟩ => absurd (hlow v hv) hp) fun hok =>
    (hok.2 hfiles hcwd).1 hend

end Room

/-- **`fork` reaches a panic of `copyuvm` only if a page below `sz` is missing.** -/
theorem fork_copyuvm (h : Core L k) (hl : (k.proc c).Live) (hr : fork L k c = .error .copyuvm) :
    ∃ v < (k.proc c).pages, ¬ Present (entry k.mem (k.proc c).pgdir v) := by
  have hends := fork_ends (L := L) hl
  rw [hr] at hends
  cases hends with
  | missing ha hc =>
    rcases h.copyuvm_cases hl ha.stack with ⟨_, _, hr', -⟩ | ⟨_, hr', -⟩ | ⟨-, hp⟩
    · exact nomatch hr'.symm.trans hc
    · exact nomatch hr'.symm.trans hc
    · exact hp
  | stopped _ _ he => exact absurd rfl he

end Xv6
