import Xv6Ipc.Process.Sizes

/-!
# Process/Solo — the first process alone

Runs that show what can go wrong begin with the first process alone in the table and memory to spare.
It registers regions, and forks:

    Boot ──▸ Solo ──share_mem──▸ Solo ──fork──▸ parent and child

-/

namespace Xv6

open Function

/-- **The first process is alone**, has no open files, and there is memory to spare. -/
structure Solo (L : Linker) (k : Kernel) : Prop where
  core : Core L k
  low : AllLow k
  runnable : (k.proc k.initproc).state = .runnable
  cwd : (k.proc k.initproc).cwd ≠ none
  pages : (k.proc k.initproc).pages ≤ 16
  idle : ∀ c, c ≠ k.initproc → (k.proc c).state = .unused
  parent : ∀ c, (k.proc c).parent = none
  files : ∀ c fd, (k.proc c).ofile fd = none
  room : 0x1000 ≤ k.mem.free.length

variable {L : Linker} {k k' k₀ : Kernel} {c q : Slot}

theorem Booted.solo {f d : Nat} (hon : PowerOn L k₀) (hb : Booted L k₀ k f d)
    (hroom : 0x2000 ≤ k₀.mem.free.length) (hboot : Boot L k) : Solo L k where
  core := hb.core hon
  low := hboot.filled.low
  runnable := by rw [hb.first]; rfl
  cwd := by
    rw [hb.first]
    exact Option.some_ne_none _
  pages := by
    rw [hb.first]
    change (4096 + 4095) / 4096 ≤ 16
    decide
  idle c hc := by rw [hb.other hc]; rfl
  parent c := by
    by_cases hc : c = k.initproc
    · rw [hc, hb.first]
      rfl
    · rw [hb.other hc]
      rfl
  files c fd := by
    by_cases hc : c = k.initproc
    · rw [hc, hb.first]
      rfl
    · rw [hb.other hc]
      rfl
  room := by
    have := hb.length_free_le
    omega

/-- There is a run that begins with it. -/
theorem exists_solo : ∃ k f d, Boot bareLinker k ∧ Solo bareLinker k
    ∧ Booted bareLinker (bareKernel 0xDC00) k f d := by
  obtain ⟨k, f, d, hboot, hb⟩ := exists_boot 0xDC00 (by decide) (by decide)
  refine ⟨k, f, d, hboot, hb.solo (bareKernel_powerOn (by decide) le_rfl) ?_ hboot, hb⟩
  rw [show (bareKernel 0xDC00).mem.free.length = 0xDC00 from List.length_range']
  decide

/-! ## Registering regions -/

/-- The system with another table in slot `c`. -/
def Kernel.setShared (k : Kernel) (c : Slot) (l : List Shared) : Kernel :=
  k.setProc c { k.proc c with shared := l }

@[simp] theorem Kernel.setShared_initproc (l : List Shared) :
    (k.setShared c l).initproc = k.initproc := rfl

theorem Kernel.setShared_proc_self (k : Kernel) (c : Slot) (l : List Shared) :
    (k.setShared c l).proc c = { k.proc c with shared := l } := update_self ..

theorem Kernel.setShared_proc_of_ne (l : List Shared) (h : q ≠ c) :
    (k.setShared c l).proc q = k.proc q := update_of_ne h ..

theorem Quiet.setShared {l : List Shared} (hlen : l.length = (k.proc c).shared.length) :
    Quiet k (k.setShared c l) c := by
  refine ⟨rfl, fun s hs => .of_eq (k.setShared_proc_of_ne l hs), ?_, ?_, ?_, ?_, fun hl => ?_, ?_⟩
  all_goals rw [Kernel.setShared_proc_self]
  · exact hl
  · exact hlen

namespace Solo

variable (h : Solo L k)
include h

theorem runs : (k.proc k.initproc).Runs := .inl h.runnable

/-- Another table leaves it alone. -/
theorem setShared {l : List Shared} (hlen : l.length = (k.proc k.initproc).shared.length) :
    Solo L (k.setShared k.initproc l) := by
  have hquiet := Quiet.setShared hlen
  have hself := k.setShared_proc_self k.initproc l
  have hother : ∀ c, c ≠ k.initproc → (k.setShared k.initproc l).proc c = k.proc c := fun c hc =>
    k.setShared_proc_of_ne l hc
  refine ⟨(hquiet.trade h.core h.runs.live).core h.core, hquiet.allLow h.core h.runs.live h.low, ?_, ?_,
    ?_, fun c hc => ?_, fun c => ?_, fun c fd => ?_, h.room⟩
  · rw [Kernel.setShared_initproc, hself]
    exact h.runnable
  · rw [Kernel.setShared_initproc, hself]
    exact h.cwd
  · rw [Kernel.setShared_initproc, hself]
    exact h.pages
  · rw [hother c hc]
    exact h.idle c hc
  · by_cases hc : c = k.initproc
    · rw [hc, hself]
      exact h.parent _
    · rw [hother c hc]
      exact h.parent c
  · by_cases hc : c = k.initproc
    · rw [hc, hself]
      exact h.files _ fd
    · rw [hother c hc]
      exact h.files c fd

/-- **It can fork** while its table has an end. -/
theorem fork (hend : ∃ s ∈ (k.proc k.initproc).shared, s.sz = 0) :
    ∃ k' q, Step L k ⟨k.initproc, .fork, some k.nextpid⟩ k' ∧ Forked k k' k.initproc q := by
  have hl : (k.proc k.initproc).Live := h.runs.live
  obtain ⟨q, hq⟩ := exists_slot_ne k.initproc
  have hroom : imageFrames (k.proc k.initproc).pages + 1 < k.mem.free.length := by
    have hpages := h.pages
    have hmem := h.room
    rw [imageFrames]
    omega
  obtain ⟨k', q, hr, hf⟩ := fork_of_room h.core hl (h.idle q hq) hroom (h.low _ hl)
    (fun fd f hfd => by simp [h.files] at hfd) h.cwd hend
  exact ⟨k', q, ⟨h.runs, by rw [syscall, hr]; rfl⟩, hf⟩

end Solo

/-! ## A child -/

/-- A child without open files, of a parent in the same way. -/
theorem Forked.files (hf : Forked k k' c q) (hc : ∀ fd, (k.proc c).ofile fd = none)
    (hq : ∀ fd, (k.proc q).ofile fd = none) (fd : Fin NOFILE) : (k'.proc q).ofile fd = none := by
  rw [hf.ofile, inherit, hc, hq]
  rfl

/-- **The first process and one child**, in `q`, since the first process was alone in `k`. -/
structure Pair (L : Linker) (k k' : Kernel) (q : Slot) : Prop where
  ne : q ≠ k.initproc
  core : Core L k'
  low : AllLow k'
  other : ∀ s, s ≠ q → k'.proc s = k.proc s
  runnable : (k'.proc q).state = .runnable
  parent : (k'.proc q).parent = some k.initproc
  files : ∀ fd, (k'.proc q).ofile fd = none
  cwd : (k'.proc q).cwd ≠ none
  moves : k.mem.Moves [] k'.mem (hold k'.mem (k'.proc q))
  initproc : k'.initproc = k.initproc

theorem Forked.pair (h : Solo L k) (hf : Forked k k' k.initproc q) : Pair L k k' q where
  ne := by
    rintro rfl
    exact h.runs.live hf.unused
  core := (hf.trade h.core h.runs.live).core h.core
  low := hf.allLow h.core h.runs.live h.low
  other := hf.other
  runnable := hf.state
  parent := hf.parent
  files := hf.files (h.files _) (h.files q)
  cwd := by
    rw [hf.cwd]
    exact h.cwd
  moves := hf.moves
  initproc := hf.initproc

namespace Pair

variable (h : Pair L k k' q)
include h

theorem runs : (k'.proc q).Runs := .inl h.runnable

/-- The child has another table. -/
theorem setShared {l : List Shared} (hlen : l.length = (k'.proc q).shared.length) :
    Pair L k (k'.setShared q l) q := by
  have hquiet := Quiet.setShared hlen
  refine ⟨h.ne, (hquiet.trade h.core h.runs.live).core h.core,
    hquiet.allLow h.core h.runs.live h.low, fun s hs => ?_, ?_, ?_, ?_, ?_, ?_, h.initproc⟩
  · rw [Kernel.setShared_proc_of_ne _ hs]
    exact h.other s hs
  all_goals rw [Kernel.setShared_proc_self]
  · exact h.runnable
  · exact h.parent
  · exact h.files
  · exact h.cwd
  · exact h.moves

/-- The child registers a region. -/
theorem shareMem {b : ShareArgs} (hb : b.vamem + 4 ≤ (k'.proc q).sz) :
    ∃ r k₂, Step L k' ⟨q, .shareMem (some b), some r⟩ k₂ ∧ Pair L k k₂ q
      ∧ k₂ = k'.setProc q { k'.proc q with
        shared := (registerFrom b.name b.vamem b.sz 0 (k'.proc q).shared).2 } := by
  have hr : sysShareMem k' q (some b) = ((registerFrom b.name b.vamem b.sz 0 (k'.proc q).shared).1,
      k'.setShared q (registerFrom b.name b.vamem b.sz 0 (k'.proc q).shared).2) :=
    if_neg (not_not.mpr (Proc.within_of_le hb))
  refine ⟨(registerFrom b.name b.vamem b.sz 0 (k'.proc q).shared).1, k'.setShared q _,
    ⟨h.runs, ?_⟩, h.setShared (length_registerFrom ..), rfl⟩
  rw [syscall, hr]

/-- **The child exits and is reaped**; the first process is alone again. -/
theorem gone (hsolo : Solo L k) :
    ∃ es k₄, Runs.Trace (Step L) k' es k₄ ∧ Solo L k₄ ∧ k₄.initproc = k.initproc
      ∧ (∀ s, s ≠ q → k₄.proc s = k.proc s)
      ∧ (k₄.proc q).shared = (k'.proc q).shared.map Shared.clear := by
  have hinit : q ≠ k'.initproc := by
    rw [h.initproc]
    exact h.ne
  obtain ⟨k₃, hr₃⟩ := exit_total hinit h.files h.cwd
  have hexit := exit_spec hr₃
  have hcore₃ := (hexit.quiet.trade h.core h.runs.live).core h.core
  have hlow₃ := hexit.quiet.allLow h.core h.runs.live h.low
  have hparent : ∀ s, s ≠ q → (k₃.proc s).parent = none := fun s hs => by
    rw [hexit.parent, h.other s hs, hsolo.parent, if_neg (by simp)]
  have hother₃ : ∀ s, s ≠ q → k₃.proc s = k.proc s := fun s hs => by
    rw [(hexit.quiet.rest s hs).same, hparent s hs, h.other s hs, ← hsolo.parent s]
  have hpar₃ : (k₃.proc q).parent = some k.initproc := by
    rw [hexit.parent, h.parent, if_neg]
    exact fun hc => h.ne (Option.some.inj hc).symm
  have hzom₃ : (k₃.proc q).state = .zombie := by rw [hexit.own]
  have hruns₃ : (k₃.proc k.initproc).Runs := by
    rw [hother₃ _ (Ne.symm h.ne)]
    exact hsolo.runs
  obtain ⟨r, k₄, q', hr₄, hreap⟩ := wait_of_zombie hcore₃ hpar₃ hzom₃
  obtain rfl : q' = q := by
    by_contra hne
    have := hreap.parent
    rw [hparent q' hne] at this
    simp at this
  have hother₄ : ∀ s, s ≠ q' → k₄.proc s = k.proc s := fun s hs => by
    rw [hreap.other hs, hother₃ s hs]
  have hne := Ne.symm h.ne
  have hslot : k₄.proc q' = reaped (k₃.proc q') := hreap.slot
  have hinit₄ : k₄.initproc = k.initproc := by
    rw [hreap.same]
    exact hexit.initproc.trans h.initproc
  refine ⟨[⟨q', .exit, none⟩, ⟨k.initproc, .wait, r⟩], k₄, ?_, ?_, hinit₄, hother₄, ?_⟩
  · refine .cons ⟨h.runs, ?_⟩ (.single ⟨hruns₃, hr₄⟩)
    rw [syscall, hr₃]
    rfl
  · have hfree : k.mem.free.length = k₄.mem.free.length := by
      have hfork := h.moves.length
      have hback := hreap.moves.length
      rw [hexit.quiet.hold h.runs.live, hexit.quiet.mem] at hback
      simpa using hfork.trans hback
    refine ⟨(hreap.trade hcore₃).core hcore₃, hreap.allLow hcore₃ hlow₃,
      ?_, ?_, ?_, fun s hs => ?_, fun s => ?_, fun s fd => ?_, ?_⟩
    · rw [hinit₄, hother₄ _ hne]
      exact hsolo.runnable
    · rw [hinit₄, hother₄ _ hne]
      exact hsolo.cwd
    · rw [hinit₄, hother₄ _ hne]
      exact hsolo.pages
    · rw [hinit₄] at hs
      by_cases hsq : s = q'
      · rw [hsq]
        exact hreap.unused
      · rw [hother₄ s hsq]
        exact hsolo.idle s hs
    · by_cases hsq : s = q'
      · rw [hsq, hslot]
        rfl
      · rw [hother₄ s hsq]
        exact hsolo.parent s
    · by_cases hsq : s = q'
      · rw [hsq, hslot, reaped, hexit.own]
      · rw [hother₄ s hsq]
        exact hsolo.files s fd
    · rw [← hfree]
      exact hsolo.room
  · rw [hslot, reaped, hexit.own]

end Pair

end Xv6
