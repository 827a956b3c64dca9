import Xv6Ipc.Process.Growproc
import Xv6Ipc.Process.Indices

/-!
# Process/Inherit — what a child has of its parent's regions

A child gets its parent's entries of `shared[]` and a copy of its pages, so until it starts another
program a region is in it what it was in the parent, in other frames:

    parent   shared[] ─ region ─▸ page v ─▸ f
                │ copy              │ copy
    child    shared[] ─ region ─▸ page v ─▸ f'        f' ≠ f, same bytes

The loop that copies the entries tests `i > 9` before it looks for the end of the table.  A table
with ten regions has no end, and its owner cannot fork.
-/

namespace Xv6

/-- A call by which process `p` keeps the byte at `x`: no `exec`, no `exit`, and no `sbrk` that moves
the end below it. -/
def Call.Keeps (p : Proc) (x : Nat) : Call → Prop
  | .exec _ => False
  | .exit => False
  | .sbrk n => x < p.sz + n.val
  | _ => True

/-- **A step until the child `q` execs**: whoever links, does so safely. -/
structure Spares (L : Linker) (q : Slot) (x : Nat) (k : Kernel) (e : Event) (k' : Kernel) : Prop where
  step : Step L k e k'
  links : e.call.LinksSafely k e.who
  keeps : e.who = q → e.call.Keeps (k.proc q) x

variable {L : Linker} {k k' : Kernel} {c q : Slot} {x : Nat} {e : Event}

/-! ## The entries -/

/-- **A process has what it had at `k₀`**, at the page of address `x`. -/
structure Retains (L : Linker) (k₀ : Kernel) (q : Slot) (x : Nat) (k : Kernel) : Prop where
  core : Core L k
  runnable : (k.proc q).state = .runnable
  pgdir : (k.proc q).pgdir = (k₀.proc q).pgdir
  size : x < (k.proc q).sz
  low : ∀ v, v < (k.proc q).pages → Present (entry k.mem (k.proc q).pgdir v)
  page : SamePage k₀.mem k.mem (k₀.proc q).pgdir (x / 4096)

theorem SamePage.trans {m m' m'' : Mem} {d v : Nat} (h : SamePage m m' d v)
    (h' : SamePage m' m'' d v) : SamePage m m'' d v := by
  refine ⟨h'.1.trans h.1, ?_⟩
  rw [← h.2, ← h.1]
  exact h'.2

namespace Retains

variable {k₀ : Kernel} (h : Retains L k₀ q x k)
include h

theorem live : (k.proc q).Live := by simp [Proc.Live, h.runnable]

theorem pages : x / 4096 < (k.proc q).pages := by
  have := h.size
  rw [Proc.pages]
  omega

theorem below : x / 4096 < 0x40000 := by
  have := h.core.size q h.live
  have := h.size
  rw [SHAREBASE] at *
  omega

/-- The page's frame is the process's own. -/
theorem mem_hold : pteFrame (entry k.mem (k.proc q).pgdir (x / 4096)) ∈ hold k.mem (k.proc q) :=
  mem_hold_of_owned h.live (List.mem_append_right _
    (mem_leaves.mpr ⟨_, h.below, leafAt_eq_some.mpr ⟨h.low _ h.pages, rfl⟩⟩))

/-- Another slot's trade. -/
theorem trade {s : Slot} {X : List Nat} (t : Trade k k' s X) (hne : q ≠ s) : Retains L k₀ q x k' := by
  have hb := t.rest q hne
  have hentry := t.entry_of_other h.core hne h.live
  refine ⟨t.core h.core, by rw [hb.state, h.runnable], by rw [hb.pgdir, h.pgdir],
    by rw [hb.sz]; exact h.size, fun v hv => ?_, h.page.trans ?_⟩
  · rw [hentry]
    rw [Proc.pages, hb.sz] at hv
    exact h.low v hv
  · rw [hb.pgdir] at hentry
    rw [← h.pgdir]
    exact ⟨congrFun hentry _, t.cell_of_other h.core hne h.mem_hold⟩

/-- A quiet call of its own. -/
theorem quiet (hq : Quiet k k' q) (hstate : (k'.proc q).state = .runnable) : Retains L k₀ q x k' := by
  refine ⟨(hq.trade h.core h.live).core h.core, hstate, by rw [hq.pgdir, h.pgdir],
    by rw [hq.sz]; exact h.size, fun v hv => ?_, ?_⟩
  · rw [hq.mem, hq.pgdir]
    rw [Proc.pages, hq.sz] at hv
    exact h.low v hv
  · rw [hq.mem]
    exact h.page

/-- An `sbrk` of its own, with the byte below the new end. -/
theorem sbrk {n : CInt} {r : Int} (hr : sysSbrk L k q n = .ok (r, k')) (hn : x < (k.proc q).sz + n.val) :
    Retains L k₀ q x k' := by
  have hres := sysSbrk_spec h.core h.live hr
  have hin := h.core.inOrder h.live h.low
  obtain ⟨r₁, k₁, hgrow, hans⟩ := hin.grows (n := n) fun hc => by
    have := hc.2.2
    omega
  rw [sysSbrk, hgrow] at hr
  obtain ⟨-, rfl⟩ := Prod.mk.inj (Except.ok.inj hr)
  have hcore := (hres.trade h.core h.live).core h.core
  have hstate : (k₁.proc q).state = .runnable := by
    rw [hres.own]
    exact h.runnable
  have hlive : (k₁.proc q).Live := by simp [Proc.Live, hstate]
  have hpages : (k₁.proc q).pages ≤ 0x40000 := by
    have := hcore.size q hlive
    rw [SHAREBASE] at this
    rw [Proc.pages]
    omega
  have hsize := h.size
  rcases hans with ⟨-, hmoved⟩ | ⟨-, hstay⟩
  · have hnew : x < (k₁.proc q).sz := by
      have := hmoved.size
      omega
    refine ⟨hcore, hstate, hres.pgdir.trans h.pgdir, hnew, fun v hv => ?_, h.page.trans ?_⟩
    · rw [hres.pgdir]
      exact (hmoved.mapped v (hv.trans_le hpages)).mpr hv
    · rw [← h.pgdir]
      exact hmoved.kept _ h.pages (by rw [Proc.pages]; omega)
  · refine ⟨hcore, hstate, hres.pgdir.trans h.pgdir, by rw [hstay.size]; exact hsize,
      fun v hv => ?_, h.page.trans ?_⟩
    · rw [hres.pgdir]
      refine (hstay.mapped v (hv.trans_le hpages)).mpr (h.low v ?_)
      rwa [Proc.pages, hstay.size] at hv
    · rw [← h.pgdir]
      exact hstay.kept _ h.below (h.low _ h.pages)

/-- A call of its own that is quiet leaves it in the state it was in. -/
theorem state {r : Option Int} {call : Call} (hok : syscall L k q call = .ok (r, k'))
    (hkeep : call.Keeps (k.proc q) x) (hq : Quiet k k' q) : (k'.proc q).state = .runnable := by
  cases syscall_returned hok with
  | fork hr =>
    rcases fork_spec h.core h.live hr with ⟨-, hf⟩ | ⟨-, s, hf⟩ | ⟨s, -, hf⟩
    · rw [hf.same_of_live (hq.live h.live), h.runnable]
    · rw [hf.other q fun he => h.live (he ▸ hf.unused), h.runnable]
    · rw [hf.other q fun he => h.live (he ▸ hf.unused), h.runnable]
  | exec hr | exit hr => exact hkeep.elim
  | wait hr =>
    rcases wait_spec h.core hr with rfl | ⟨s, hs⟩
    · exact h.runnable
    · have hne : q ≠ s := by
        rintro rfl
        exact absurd (h.runnable.symm.trans hs.zombie) (by decide)
      rw [hs.other hne, h.runnable]
  | sbrk hr => rw [(sysSbrk_spec h.core h.live hr).own, h.runnable]
  | @shareMem a _ _ hr =>
    rcases sysShareMem_cases k q a with hs | ⟨b, -, -, hs⟩
    · obtain ⟨-, rfl⟩ := Prod.mk.inj (hr.symm.trans hs)
      exact h.runnable
    · obtain ⟨-, rfl⟩ := Prod.mk.inj (hr.symm.trans hs)
      rw [Kernel.setProc_proc_self]
      exact h.runnable
  | «open» hr => rw [(sysOpen_refs hr).own, h.runnable]
  | close hr => rw [(sysClose_refs hr).own, h.runnable]

/-- **One step keeps the page**… -/
theorem step (hs : Spares L q x k e k') : Retains L k₀ q x k' := by
  obtain ⟨⟨hruns, hok⟩, hlink, hkeep⟩ := hs
  have heff := syscall_effect h.core hruns.live hlink hok
  obtain ⟨who, call, ret⟩ := e
  simp only at *
  have hunused : ∀ {s}, (k.proc s).state = .unused → q ≠ s := fun hs he => h.live (he ▸ hs)
  cases heff with
  | quiet hq =>
    by_cases hwho : who = q
    · subst hwho
      exact h.quiet hq (h.state hok (hkeep rfl) hq)
    · exact h.trade (hq.trade h.core hruns.live) (Ne.symm hwho)
  | resized hr =>
    by_cases hwho : who = q
    · subst hwho
      cases syscall_returned hok with
      | sbrk hr => exact h.sbrk hr (hkeep rfl)
    · exact h.trade (hr.trade h.core hruns.live) (Ne.symm hwho)
  | execFailed hf => exact h.trade (hf.trade h.core) fun he => hkeep he.symm
  | execd he => exact h.trade (he.trade h.core hruns.live) fun hq => hkeep hq.symm
  | forkFailed hf =>
    obtain ⟨s, hne, t⟩ := hf.trade h.core h.live
    exact h.trade t hne
  | forkLeaked hf => exact h.trade (hf.trade h.core) (hunused hf.unused)
  | forked hf => exact h.trade (hf.trade h.core hruns.live) (hunused hf.unused)
  | reaped hr =>
    refine h.trade (hr.trade h.core) fun he => ?_
    subst he
    exact absurd (h.runnable.symm.trans hr.zombie) (by decide)

/-- …**and so does a run.** -/
theorem run {es : List Event} {k' : Kernel} (hrun : Runs.Trace (Spares L q x) k es k') :
    Retains L k₀ q x k' := hrun.keeps (P := Retains L k₀ q x) h fun _ _ _ _ h hs => h.step hs

end Retains

end Xv6
