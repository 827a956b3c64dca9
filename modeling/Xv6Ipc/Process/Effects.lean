import Xv6Ipc.Process.Sbrk

/-!
# Process/Effects — what one call can do

Seen from the books, a call does one of a few things, and each is a trade of one slot:

    quiet       exit, share_mem, open, close, a call refused or put to sleep
    resized     sbrk                       the caller's pages
    execd       exec                       the caller's directory
    forked      fork                       the child's slot, stack and directory
    reaped      wait                       the child's, the other way round

`syscall_effect` says so once for all calls; what holds across calls is proved from it.
-/

namespace Xv6

variable {L : Linker} {k k' : Kernel} {c q : Slot}

/-! ## Quiet calls -/

/-- **A call that leaves memory alone**, and of the caller's slot what memory is reached through. -/
structure Quiet (k k' : Kernel) (c : Slot) : Prop where
  mem : k'.mem = k.mem
  rest : ∀ s, s ≠ c → Beside (k.proc s) (k'.proc s)
  sz : (k'.proc c).sz = (k.proc c).sz
  pgdir : (k'.proc c).pgdir = (k.proc c).pgdir
  parentpgdir : (k'.proc c).parentpgdir = (k.proc c).parentpgdir
  kstack : (k'.proc c).kstack = (k.proc c).kstack
  live : (k.proc c).Live → (k'.proc c).Live
  table : (k'.proc c).shared.length = (k.proc c).shared.length

theorem Quiet.hold (h : Quiet k k' c) (hl : (k.proc c).Live) :
    hold k'.mem (k'.proc c) = hold k.mem (k.proc c) := by
  rw [hold_of_live (h.live hl), hold_of_live hl, h.mem, h.kstack, h.pgdir]

theorem Quiet.refl (k : Kernel) (c : Slot) : Quiet k k c :=
  ⟨rfl, fun _ _ => .refl _, rfl, rfl, rfl, rfl, id, rfl⟩

theorem Quiet.trade (h : Core L k) (hl : (k.proc c).Live) (hq : Quiet k k' c) : Trade k k' c [] := by
  refine h.spared ?_ hq.rest (iff_of_true (hq.live hl) hl)
    (fun _ => ⟨hq.sz, hq.pgdir, hq.kstack⟩) hq.table
  rw [hq.mem]
  exact Heap.Moves.refl _ _

/-- **A call that changes references and the caller's descriptors only.** -/
structure Refs (k k' : Kernel) (c : Slot) : Prop where
  mem : k'.mem = k.mem
  other : ∀ s, s ≠ c → k'.proc s = k.proc s
  own : k'.proc c = { k.proc c with ofile := (k'.proc c).ofile }
  initproc : k'.initproc = k.initproc

theorem Refs.refl (k : Kernel) (c : Slot) : Refs k k c := ⟨rfl, fun _ _ => rfl, rfl, rfl⟩

theorem Refs.trans {k'' : Kernel} (h : Refs k k' c) (h' : Refs k' k'' c) : Refs k k'' c where
  mem := h'.mem.trans h.mem
  other s hs := (h'.other s hs).trans (h.other s hs)
  own := by rw [h'.own, h.own]
  initproc := h'.initproc.trans h.initproc

theorem Refs.of_counts (h : k' = { k with file := k'.file, iref := k'.iref }) (c : Slot) :
    Refs k k' c := by
  rw [h]
  exact ⟨rfl, fun _ _ => rfl, rfl, rfl⟩

theorem Refs.of_ofile (k : Kernel) (c : Slot) (ofile : Fin NOFILE → Option Nat) :
    Refs k (k.setProc c { k.proc c with ofile := ofile }) c :=
  ⟨rfl, fun _ hs => Kernel.setProc_proc_of_ne _ _ _ hs, by rw [Kernel.setProc_proc_self], rfl⟩

theorem Refs.quiet (h : Refs k k' c) : Quiet k k' c := by
  refine ⟨h.mem, fun s hs => .of_eq (h.other s hs), ?_, ?_, ?_, ?_, fun hl => ?_, ?_⟩
  all_goals rw [h.own]
  exact hl

theorem fileclose_spec {f : Nat} (h : fileclose k f = .ok k') :
    k' = { k with file := k'.file, iref := k'.iref } := by
  rw [fileclose] at h
  split at h
  · simp at h
  · split at h
    · obtain rfl := Except.ok.inj h
      rfl
    · split at h
      · obtain rfl := Except.ok.inj h
        rfl
      · obtain rfl := Except.ok.inj h
        rfl

/-- Closing the files changes references only. -/
theorem closeFiles_spec {ofile : Fin NOFILE → Option Nat} {l : List (Fin NOFILE)}
    (h : l.foldlM (closeFile ofile) k = .ok k') : k' = { k with file := k'.file, iref := k'.iref } :=
  Loops.foldlM_keeps (P := fun k' => k' = { k with file := k'.file, iref := k'.iref })
    (fun s fd s' hs hd => by
      rw [closeFile] at hd
      split at hd
      · obtain rfl := Except.ok.inj hd
        exact hs
      · rw [fileclose_spec hd, hs]) rfl h

/-- **What `exit` does**: it keeps the space for `wait` to free; regions, files and children go. -/
structure Exited (k k' : Kernel) (c : Slot) : Prop where
  quiet : Quiet k k' c
  own : k'.proc c = { k.proc c with
    parent := (k'.proc c).parent, ofile := fun _ => none
    shared := (k.proc c).shared.map Shared.clear, cwd := none, state := .zombie }
  parent : ∀ s, (k'.proc s).parent
    = if (k.proc s).parent = some c then some k.initproc else (k.proc s).parent
  initproc : k'.initproc = k.initproc

theorem adopted_parent (k : Kernel) (c s : Slot) : (adopted k c s).parent
    = if (k.proc s).parent = some c then some k.initproc else (k.proc s).parent := by
  rw [adopted]
  split <;> rfl

theorem adopted_same (k : Kernel) (c s : Slot) :
    adopted k c s = { k.proc s with parent := (adopted k c s).parent } := by
  rw [adopted]
  split <;> rfl

theorem exit_spec (h : exit k c = .ok k') : Exited k k' c := by
  rw [exit] at h
  split at h
  · simp at h
  split at h
  · simp at h
  rename_i k₁ hclose
  have hk₁ := closeFiles_spec hclose
  split at h
  · simp at h
  rename_i ip hcwd
  obtain rfl := Except.ok.inj h
  have hadopt : adopted (iput k₁ ip) c = adopted k c := by
    rw [hk₁]
    rfl
  rw [hadopt]
  have hself : ∀ (k₂ : Kernel) (p : Proc), (k₂.setProc c p).proc c = p := fun k₂ p =>
    Kernel.setProc_proc_self ..
  have hother : ∀ s, s ≠ c → ∀ (k₂ : Kernel) (p : Proc), (k₂.setProc c p).proc s = k₂.proc s :=
    fun s hs k₂ p => Kernel.setProc_proc_of_ne _ _ _ hs
  refine ⟨⟨by rw [hk₁]; rfl, fun s hs => ?_, ?_, ?_, ?_, ?_, fun _ => ?_, ?_⟩, ?_, fun s => ?_,
    by rw [hk₁]; rfl⟩
  · rw [hother s hs]
    refine ⟨adopted_same k c s, fun hnone => ?_⟩
    rw [adopted_parent, hnone, if_neg (by simp)]
  · rw [hself, adopted_same]
  · rw [hself, adopted_same]
  · rw [hself, adopted_same]
  · rw [hself, adopted_same]
  · rw [hself]
    simp [Proc.Live]
  · rw [hself, adopted_same]
    exact List.length_map _
  · rw [hself, adopted_same]
  · by_cases hs : s = c
    · subst hs
      rw [hself]
      exact adopted_parent k s s
    · rw [hother s hs]
      exact adopted_parent k c s

/-- **A process without open files can exit.** -/
theorem exit_total (hinit : c ≠ k.initproc) (hfiles : ∀ fd, (k.proc c).ofile fd = none)
    (hcwd : (k.proc c).cwd ≠ none) : ∃ k', exit k c = .ok k' := by
  obtain ⟨ip, hip⟩ := Option.ne_none_iff_exists'.mp hcwd
  have hclose : (List.finRange NOFILE).foldlM (closeFile (k.proc c).ofile) k = .ok k := by
    generalize List.finRange NOFILE = l
    induction l with
    | nil => rfl
    | cons fd l ih =>
      rw [List.foldlM_cons, closeFile, hfiles fd]
      exact ih
  rw [exit, if_neg hinit]
  simp only [hclose, hip]
  exact ⟨_, rfl⟩

/-! ## `wait` -/

/-- **Every way `wait` can return**: with nothing done, or with a child reaped. -/
theorem wait_inv {r : Option Int} (h : wait L k c = .ok (r, k')) :
    k' = k ∨ ∃ q m₁ m₂, (k.proc q).parent = some c ∧ (k.proc q).state = .zombie
      ∧ kfree L k.mem (k.proc q).kstack = .ok m₁ ∧ freevm L m₁ (k.proc q).pgdir = .ok m₂
      ∧ k' = { k with mem := m₂ }.setProc q (reaped (k.proc q)) := by
  rw [wait] at h
  split at h
  · rename_i q hq
    obtain ⟨hpar, hzom⟩ : (k.proc q).parent = some c ∧ (k.proc q).state = .zombie := by
      simpa using List.find?_some hq
    split at h
    · simp at h
    · rename_i m₁ hk
      split at h
      · simp at h
      · rename_i m₂ hf
        obtain ⟨-, rfl⟩ := Prod.mk.inj (Except.ok.inj h)
        exact .inr ⟨q, m₁, m₂, hpar, hzom, hk, hf, rfl⟩
  · split at h
    all_goals
      obtain ⟨-, rfl⟩ := Prod.mk.inj (Except.ok.inj h)
      exact .inl rfl

/-- **A child is reaped**: its slot is `UNUSED`, its frames are free. -/
structure Reaped (k k' : Kernel) (c q : Slot) : Prop where
  parent : (k.proc q).parent = some c
  zombie : (k.proc q).state = .zombie
  moves : k.mem.Moves (hold k.mem (k.proc q)) k'.mem []
  vmfreed : k'.mem.vmfreed = (k.proc q).pgdir :: k.mem.vmfreed
  same : k' = { k with mem := k'.mem }.setProc q (reaped (k.proc q))

/-- Freeing a stack and a directory. -/
theorem Core.reap (h : Core L k) (hl : (k.proc q).Live) :
    ∃ m₁ m₂, kfree L k.mem (k.proc q).kstack = .ok m₁ ∧ freevm L m₁ (k.proc q).pgdir = .ok m₂
      ∧ k.mem.Moves (hold k.mem (k.proc q)) m₂ []
      ∧ m₂.vmfreed = (k.proc q).pgdir :: k.mem.vmfreed := by
  have hhold := hold_of_live (m := k.mem) hl
  have hn := h.free_hold_nodup q
  rw [hhold] at hn
  have hout : (k.proc q).kstack ∉ owned k.mem (k.proc q).pgdir :=
    (List.nodup_cons.mp (List.nodup_append.mp hn).2.1).1
  obtain ⟨m₁, hk, hmove, hcell, hvm⟩ := kfree_spec k.mem (h.hold_frame (c := q)
    (by rw [hhold]; exact List.mem_cons_self ..))
  have hown : owned m₁ (k.proc q).pgdir = owned k.mem (k.proc q).pgdir := owned_congr fun g hg =>
    hcell g fun hc => hout (hc ▸ List.mem_append_left _ hg)
  have hmove₁ := hmove.extend (owned k.mem (k.proc q).pgdir)
  have hn₁ := hmove₁.nodup hn
  rw [List.nil_append, ← hown] at hn₁ hmove₁
  obtain ⟨m₂, hf, hmove₂, hvm₂⟩ := freevm_spec hn₁ fun g hg => by
    rw [hown] at hg
    exact h.hold_frame (mem_hold_of_owned hl hg)
  refine ⟨m₁, m₂, hk, hf, ?_, by rw [hvm₂, hvm]⟩
  rw [hhold, ← List.singleton_append, ← hown]
  exact hmove₁.trans hmove₂

/-- **What `wait` can do.** -/
theorem wait_spec {r : Option Int} (h : Core L k) (hok : wait L k c = .ok (r, k')) :
    k' = k ∨ ∃ q, Reaped k k' c q := by
  rcases wait_inv hok with rfl | ⟨q, m₁, m₂, hpar, hzom, hk, hf, rfl⟩
  · exact .inl rfl
  · have hl : (k.proc q).Live := by simp [Proc.Live, hzom]
    obtain ⟨m₁', m₂', hk', hf', hmove, hvm⟩ := h.reap hl
    obtain rfl : m₁ = m₁' := Except.ok.inj (hk.symm.trans hk')
    obtain rfl : m₂ = m₂' := Except.ok.inj (hf.symm.trans hf')
    exact .inr ⟨q, hpar, hzom, hmove, hvm, rfl⟩

/-- **`wait` reaps if there is a child to reap.** -/
theorem wait_of_zombie (h : Core L k) (hpar : (k.proc q).parent = some c)
    (hzom : (k.proc q).state = .zombie) : ∃ r k' q, wait L k c = .ok (r, k') ∧ Reaped k k' c q := by
  cases hfind : (List.finRange NPROC).find? fun q =>
      (k.proc q).parent = some c ∧ (k.proc q).state = .zombie with
  | none =>
    have hnone := List.find?_eq_none.mp hfind q (List.mem_finRange q)
    simp [hpar, hzom] at hnone
  | some q' =>
    obtain ⟨hpar', hzom'⟩ : (k.proc q').parent = some c ∧ (k.proc q').state = .zombie := by
      simpa using List.find?_some hfind
    obtain ⟨m₁, m₂, hk, hf, hmove, hvm⟩ := h.reap (q := q') (by simp [Proc.Live, hzom'])
    refine ⟨some (k.proc q').pid, { k with mem := m₂ }.setProc q' (reaped (k.proc q')), q', ?_,
      hpar', hzom', hmove, hvm, rfl⟩
    rw [wait, hfind]
    simp only [hk, hf]

namespace Reaped

variable (hr : Reaped k k' c q)
include hr

theorem other {s : Slot} (hne : s ≠ q) : k'.proc s = k.proc s := by
  rw [hr.same, Kernel.setProc_proc_of_ne _ _ _ hne]

theorem slot : k'.proc q = reaped (k.proc q) := by rw [hr.same, Kernel.setProc_proc_self]

theorem unused : (k'.proc q).state = .unused := by
  rw [hr.slot]
  rfl

theorem not_live : ¬ (k'.proc q).Live := not_not.mpr hr.unused

theorem trade (h : Core L k) : Trade k k' q [] := by
  refine ⟨?_, fun s hs => .of_eq (hr.other hs), fun hl => absurd hl hr.not_live,
    fun hl => absurd hl hr.not_live, ?_⟩
  · rw [hold_of_unused hr.unused, List.nil_append]
    exact hr.moves
  · rw [hr.slot]
    exact h.table q

end Reaped

/-! ## `share_mem`, `open`, `close` and `exec`, as called -/

/-- **The loop of `share_mem`**: an error leaves the table; otherwise the new entry takes the place of
the first free one, and no region has its name. -/
theorem registerFrom_cases (name : List Nat) (vamem : Nat) (sz : CInt) (i : Nat) (l : List Shared) :
    ((registerFrom name vamem sz i l).1 < 0 ∧ (registerFrom name vamem sz i l).2 = l) ∨
      ((registerFrom name vamem sz i l).1 = (i + (regions l).length : Nat)
        ∧ (regions l).length < l.length
        ∧ (registerFrom name vamem sz i l).2
          = l.set (regions l).length ⟨strncpy name SHAREDNAME, vamem, sz⟩
        ∧ ∀ s ∈ regions l, strncmp name s.name SHAREDNAME ≠ 0) := by
  induction l generalizing i with
  | nil => exact .inl ⟨Int.negSucc_lt_zero 2, rfl⟩
  | cons s l ih =>
    rw [registerFrom]
    by_cases hs : s.sz = 0
    · have hnone : regions (s :: l) = [] := by simp [regions, hs]
      rw [if_pos hs, hnone]
      exact .inr ⟨rfl, Nat.succ_pos _, rfl, by simp⟩
    · rw [if_neg hs, regions_cons hs]
      by_cases hc : strncmp name s.name SHAREDNAME = 0
      · rw [if_pos hc]
        exact .inl ⟨Int.negSucc_lt_zero 1, rfl⟩
      · rw [if_neg hc]
        rcases ih (i + 1) with ⟨hneg, hsame⟩ | ⟨hret, hlt, hset, hnew⟩
        · exact .inl ⟨hneg, by rw [hsame]⟩
        · refine .inr ⟨?_, Nat.succ_lt_succ hlt, ?_, ?_⟩
          · rw [hret, List.length_cons, Nat.add_right_comm, Nat.add_assoc]
          · rw [hset]
            rfl
          · simpa [hc] using hnew

theorem length_registerFrom (name : List Nat) (vamem : Nat) (sz : CInt) (i : Nat) (l : List Shared) :
    (registerFrom name vamem sz i l).2.length = l.length := by
  rcases registerFrom_cases name vamem sz i l with ⟨-, hsame⟩ | ⟨-, -, hset, -⟩
  · rw [hsame]
  · rw [hset, List.length_set]

/-- **Every way `share_mem` can return**: refused, or with the table gone through. -/
theorem sysShareMem_cases (k : Kernel) (c : Slot) (a : Option ShareArgs) :
    sysShareMem k c a = (-1, k) ∨ ∃ b, a = some b ∧ (k.proc c).Within b.vamem
      ∧ sysShareMem k c a = ((registerFrom b.name b.vamem b.sz 0 (k.proc c).shared).1, k.setProc c
        { k.proc c with shared := (registerFrom b.name b.vamem b.sz 0 (k.proc c).shared).2 }) := by
  cases a with
  | none => exact .inl rfl
  | some b =>
    by_cases hin : (k.proc c).Within b.vamem
    · exact .inr ⟨b, rfl, hin, if_neg (not_not.mpr hin)⟩
    · exact .inl (if_pos hin)

theorem sysShareMem_quiet (k : Kernel) (c : Slot) (a : Option ShareArgs) :
    Quiet k (sysShareMem k c a).2 c := by
  rcases sysShareMem_cases k c a with hr | ⟨b, -, -, hr⟩
  · rw [hr]
    exact .refl k c
  · rw [hr]
    refine ⟨rfl, fun s hs => .of_eq (Kernel.setProc_proc_of_ne _ _ _ hs), ?_, ?_, ?_, ?_,
      fun hl => ?_, ?_⟩
    all_goals rw [Kernel.setProc_proc_self]
    · exact hl
    · exact length_registerFrom ..

theorem filealloc_refs (k : Kernel) (c : Slot) : Refs k (filealloc k).2 c := by
  rw [filealloc]
  split
  · exact .refl k c
  · exact .of_counts rfl c

theorem fdalloc_refs (k : Kernel) (c : Slot) (f : Nat) : Refs k (fdalloc k c f).2 c := by
  rw [fdalloc]
  split
  · exact .refl k c
  · exact .of_ofile k c _

/-- `open` changes references and the caller's descriptors… -/
theorem sysOpen_refs {ip : Option Nat} {r : Int} (h : sysOpen k c ip = .ok (r, k')) :
    Refs k k' c := by
  cases ip with
  | none =>
    obtain ⟨-, rfl⟩ := Prod.mk.inj (Except.ok.inj h)
    exact .refl k c
  | some ip =>
    have hdup : Refs k (idup k ip) c := .of_counts rfl c
    have halloc := hdup.trans (filealloc_refs (idup k ip) c)
    rw [sysOpen] at h
    split at h
    · rename_i k₁ hf
      rw [hf] at halloc
      obtain ⟨-, rfl⟩ := Prod.mk.inj (Except.ok.inj h)
      exact halloc.trans (.of_counts rfl c)
    · rename_i f k₁ hf
      rw [hf] at halloc
      have hfd := halloc.trans (fdalloc_refs k₁ c f)
      split at h
      · rename_i k₂ hfd'
        rw [hfd'] at hfd
        split at h
        · simp at h
        · rename_i k₃ hclose
          obtain ⟨-, rfl⟩ := Prod.mk.inj (Except.ok.inj h)
          exact (hfd.trans (.of_counts (fileclose_spec hclose) c)).trans (.of_counts rfl c)
      · rename_i fd k₂ hfd'
        rw [hfd'] at hfd
        obtain ⟨-, rfl⟩ := Prod.mk.inj (Except.ok.inj h)
        exact hfd.trans (.of_counts rfl c)

/-- …and so does `close`. -/
theorem sysClose_refs {fd : Fin NOFILE} {r : Int} (h : sysClose k c fd = .ok (r, k')) :
    Refs k k' c := by
  rw [sysClose] at h
  split at h
  · obtain ⟨-, rfl⟩ := Prod.mk.inj (Except.ok.inj h)
    exact .refl k c
  · split at h
    · simp at h
    · rename_i k₁ hclose
      obtain ⟨-, rfl⟩ := Prod.mk.inj (Except.ok.inj h)
      exact (Refs.of_ofile k c _).trans (.of_counts (fileclose_spec hclose) c)

/-- `sys_exec` refuses, or is `exec`. -/
theorem sysExec_inv {a : ExecArgs} {r : Int} (h : sysExec L k c a = .ok (r, k')) :
    k' = k ∨ a.argv.length < MAXARG ∧ (∀ arg ∈ a.argv, arg.length < (k.proc c).sz)
      ∧ exec L k c a = .ok (r, k') := by
  rw [sysExec] at h
  split at h
  · rename_i hargs
    exact .inr ⟨hargs.1, hargs.2, h⟩
  · obtain ⟨-, rfl⟩ := Prod.mk.inj (Except.ok.inj h)
    exact .inl rfl

/-! ## One call -/

/-- **What a call can do**, as far as memory goes. -/
inductive Effect (L : Linker) (k k' : Kernel) (c : Slot) : Call → Option Int → Prop
  | quiet {call : Call} {r : Option Int} : Quiet k k' c → Effect L k k' c call r
  | resized {n : CInt} {r : Option Int} : Resized k k' c n → Effect L k k' c (.sbrk n) r
  | execFailed {a : ExecArgs} : ExecFailed k k' c → Effect L k k' c (.exec a) (some (-1))
  | execd {a : ExecArgs} : Execd L k k' c a → Effect L k k' c (.exec a) (some 0)
  | forkFailed : ForkFailed k k' → Effect L k k' c .fork (some (-1))
  | forkLeaked {q : Slot} : ForkLeaked k k' c q → Effect L k k' c .fork (some (-1))
  | forked {q : Slot} : Forked k k' c q → Effect L k k' c .fork (some k.nextpid)
  | reaped {q : Slot} {r : Option Int} : Reaped k k' c q → Effect L k k' c .wait r

/-- A call that does not link, or does so when linking is safe. -/
def Call.LinksSafely (k : Kernel) (c : Slot) : Call → Prop
  | .exec a => NeedsLink (k.proc c) a.arg0 → LinkReady k.mem (k.proc c) a.file
  | _ => True

/-- **Every call has one of these effects**, linking safely. -/
theorem syscall_effect {call : Call} {r : Option Int} (h : Core L k) (hl : (k.proc c).Live)
    (hlink : call.LinksSafely k c) (hok : syscall L k c call = .ok (r, k')) :
    Effect L k k' c call r := by
  cases syscall_returned hok with
  | fork hr =>
    rcases fork_spec h hl hr with ⟨rfl, hf⟩ | ⟨rfl, q, hf⟩ | ⟨q, rfl, hf⟩
    · exact .forkFailed hf
    · exact .forkLeaked hf
    · exact .forked hf
  | exec hr =>
    rcases sysExec_inv hr with rfl | ⟨-, hargs, hr⟩
    · exact .quiet (.refl k' c)
    · rcases exec_spec h hl (fun arg ha => (hargs arg ha).trans (h.size c hl)) hlink hr with
        ⟨rfl, hf⟩ | ⟨rfl, he⟩
      · exact .execFailed hf
      · exact .execd he
  | exit hr => exact .quiet (exit_spec hr).quiet
  | wait hr =>
    rcases wait_spec h hr with rfl | ⟨q, hreap⟩
    · exact .quiet (.refl k' c)
    · exact .reaped hreap
  | sbrk hr => exact .resized (sysSbrk_spec h hl hr)
  | @shareMem a _ _ hr =>
    obtain ⟨-, rfl⟩ := Prod.mk.inj hr
    exact .quiet (sysShareMem_quiet k c a)
  | «open» hr => exact .quiet (sysOpen_refs hr).quiet
  | close hr => exact .quiet (sysClose_refs hr).quiet

/-- **Every effect is a trade of one slot.** -/
theorem Effect.trade {call : Call} {r : Option Int} (h : Core L k) (hl : (k.proc c).Live)
    (he : Effect L k k' c call r) : ∃ q X, Trade k k' q X := by
  cases he with
  | quiet hq => exact ⟨c, [], hq.trade h hl⟩
  | resized hr => exact ⟨c, [], hr.trade h hl⟩
  | execFailed hf => exact ⟨c, [], hf.trade h⟩
  | execd he => exact ⟨c, [], he.trade h hl⟩
  | forkFailed hf =>
    obtain ⟨q, -, ht⟩ := hf.trade h hl
    exact ⟨q, [], ht⟩
  | forkLeaked hf => exact ⟨_, _, hf.trade h⟩
  | forked hf => exact ⟨_, _, hf.trade h hl⟩
  | reaped hr => exact ⟨_, _, hr.trade h⟩

end Xv6
