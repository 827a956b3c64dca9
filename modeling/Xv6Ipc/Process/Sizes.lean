import Xv6Ipc.Process.Tables

/-!
# Process/Sizes — the pages a process says it has

`copyuvm` panics at a page below `sz` that is not there.  Every call that sets `sz` has put the pages
there, with one exception:

    sbrk(-sz)   frees every page, gets the new size 0, takes it for a failure and keeps the old sz

A run of `fork`, `exec`, `sbrk`, `exit` and the like in which no process gives back its whole memory
keeps every page below `sz` present.
-/

namespace Xv6

variable {L : Linker} {k k' : Kernel} {c q : Slot} {e : Event}

/-- **Every page below `sz` is present**, and `sz` lies below `SHAREBASE`, for every process that is
`RUNNABLE`, `RUNNING` or `SLEEPING`. -/
def PagesPresent (k : Kernel) : Prop :=
  ∀ c, (k.proc c).state = .runnable ∨ (k.proc c).state = .running ∨ (k.proc c).state = .sleeping →
    (∀ a, a % 4096 = 0 → a < (k.proc c).sz → Present (entry k.mem (k.proc c).pgdir (a / 4096)))
      ∧ (k.proc c).sz < SHAREBASE

/-- A step that is no `share_mem`. -/
def PlainStep (L : Linker) (k : Kernel) (e : Event) (k' : Kernel) : Prop :=
  Step L k e k' ∧ ∀ a, e.call ≠ .shareMem a

/-- A call of `sbrk` that gives back every page. -/
def Event.Empties (k : Kernel) (e : Event) : Prop :=
  ∃ n, e.call = .sbrk n ∧ (k.proc e.who).Emptying n

/-- The pages below `sz`, in every process. -/
def AllLow (k : Kernel) : Prop :=
  ∀ c, (k.proc c).Live → ∀ v, v < (k.proc c).pages → Present (entry k.mem (k.proc c).pgdir v)

/-- **What such runs keep**: the books, empty tables of regions, and the pages below `sz`. -/
structure Filled (L : Linker) (k : Kernel) : Prop where
  core : Core L k
  bare : ∀ c, regions (k.proc c).shared = []
  low : AllLow k

theorem Filled.pagesPresent (h : Filled L k) : PagesPresent k := by
  intro c hc
  have hl : (k.proc c).Live := by
    intro hdead
    rw [hdead] at hc
    simp at hc
  refine ⟨fun a _ ha => h.low c hl _ ?_, h.core.size c hl⟩
  rw [Proc.pages]
  omega

/-! ## One step -/

/-- No regions come out of anything but `share_mem`. -/
theorem Retabled.bare {s : Slot} {call : Call} {t : List Shared} (h : Retabled k c s call t)
    (hcall : ∀ a, call ≠ .shareMem a) (htable : ∀ s, (k.proc s).shared.length = MAXSHARED)
    (hk : ∀ s, regions (k.proc s).shared = []) : regions t = [] := by
  have hclear : regions ((k.proc s).shared.map Shared.clear) = [] :=
    regions_append_clear [] _
  cases h with
  | same => exact hk s
  | exited _ | allocated _ => exact hclear
  | copied _ =>
    rw [(copyShared_clear ((htable s).trans (htable c).symm)).1]
    exact hk c
  | moved _ hshape =>
    have hnone := regions_shape hshape
    rw [hk s] at hnone
    exact List.map_eq_nil_iff.mp hnone
  | registered _ => exact absurd rfl (hcall _)

/-- A call that gives back what it took leaves every directory alone. -/
theorem Core.entry_of_spared (h : Core L k) (hl : (k.proc c).Live)
    (hmove : k.mem.Moves [] k'.mem []) :
    entry k'.mem (k.proc c).pgdir = entry k.mem (k.proc c).pgdir :=
  entry_congr fun _ hf => hmove.frame _
    (h.not_free (mem_hold_of_owned hl (List.mem_append_left _ hf))) (by simp)

/-- A trade keeps the pages of the others. -/
theorem Trade.allLow {X : List Nat} (t : Trade k k' q X) (h : Core L k) (hlow : AllLow k)
    (hown : (k'.proc q).Live → ∀ v, v < (k'.proc q).pages →
      Present (entry k'.mem (k'.proc q).pgdir v)) : AllLow k' := by
  intro c hl
  by_cases hne : c = q
  · subst hne
    exact hown hl
  · have hl' := (t.rest c hne).live.mp hl
    rw [t.entry_of_other h hne hl', Proc.pages, (t.rest c hne).sz]
    exact hlow c hl'

theorem Quiet.allLow (hq : Quiet k k' c) (h : Core L k) (hl : (k.proc c).Live) (hlow : AllLow k) :
    AllLow k' := by
  refine (hq.trade h hl).allLow h hlow fun _ => ?_
  rw [hq.mem, hq.pgdir, Proc.pages, hq.sz]
  exact hlow c hl

theorem Forked.allLow (hf : Forked k k' c q) (h : Core L k) (hl : (k.proc c).Live)
    (hlow : AllLow k) : AllLow k' := by
  refine (hf.trade h hl).allLow h hlow fun _ => ?_
  rw [hf.pages]
  exact hf.low

theorem Reaped.allLow (hr : Reaped k k' c q) (h : Core L k) (hlow : AllLow k) : AllLow k' :=
  (hr.trade h).allLow h hlow fun hq => absurd hq hr.not_live

/-- **One step keeps every page**, unless it empties a process. -/
theorem Effect.allLow {call : Call} {r : Option Int} (h : Core L k) (hl : (k.proc c).Live)
    (he : Effect L k k' c call r) (hcare : ∀ n, call = .sbrk n → ¬ (k.proc c).Emptying n)
    (hlow : AllLow k) : AllLow k' := by
  cases he with
  | quiet hq => exact hq.allLow h hl hlow
  | @resized n _ hr =>
    refine (hr.trade h hl).allLow h hlow fun _ => ?_
    have hfull := hr.ended.full (hlow c hl)
    rw [if_neg (hcare n rfl)] at hfull
    rwa [hr.pgdir]
  | execFailed hf =>
    refine (hf.trade h).allLow h hlow fun _ => ?_
    obtain ⟨shared, -, hp⟩ := hf.proc
    have hown : k'.proc c = { k.proc c with shared := shared } := by
      rw [hp, Kernel.setProc_proc_self]
    rw [hown]
    change ∀ v, v < (k.proc c).pages → Present (entry k'.mem (k.proc c).pgdir v)
    rw [h.entry_of_spared hl hf.moves]
    exact hlow c hl
  | execd hx => exact (hx.trade h hl).allLow h hlow fun _ => hx.low
  | forkFailed hf =>
    intro s hs
    have hsame := hf.same_of_live hs
    rw [hsame] at hs ⊢
    rw [h.entry_of_spared hs hf.moves]
    exact hlow s hs
  | forkLeaked hf => exact (hf.trade h).allLow h hlow fun hq => absurd hf.state hq
  | forked hf => exact hf.allLow h hl hlow
  | reaped hr => exact hr.allLow h hlow

/-! ## Runs -/

namespace Filled

variable (h : Filled L k)
include h

/-- Without regions nothing is linked, so a call has one of the known effects. -/
theorem effect (hs : PlainStep L k e k') : Effect L k k' e.who e.call e.ret := by
  refine syscall_effect h.core hs.1.1.live ?_ hs.1.2
  cases hcall : e.call with
  | exec a => exact fun hneed => absurd (h.bare e.who) hneed.2
  | _ => trivial

theorem step (hs : PlainStep L k e k') (hcare : ¬ e.Empties k) : Filled L k' := by
  have heff := h.effect hs
  obtain ⟨q, X, ht⟩ := heff.trade h.core hs.1.1.live
  exact ⟨ht.core h.core, fun c => (hs.1.retabled c).bare hs.2 h.core.table h.bare,
    heff.allLow h.core hs.1.1.live (fun n hn hemp => hcare ⟨n, hn, hemp⟩) h.low⟩

/-- A process that gives back every page has lost page `0` and still claims it. -/
theorem not_pagesPresent (hs : PlainStep L k e k') (hemp : e.Empties k) : ¬ PagesPresent k' := by
  intro hpages
  obtain ⟨n, hcall, hneg, hsum⟩ := hemp
  obtain ⟨c, call, r⟩ := e
  obtain ⟨⟨hruns, hok⟩, -⟩ := hs
  obtain rfl : call = .sbrk n := hcall
  cases syscall_returned hok with
  | sbrk hr =>
    have hres := sysSbrk_spec h.core hruns.live hr
    have hempty : (k.proc c).Emptying n := ⟨hneg, hsum⟩
    have hgap := hres.ended.gap
    rw [if_pos hempty] at hgap
    have hstate : (k'.proc c).state = (k.proc c).state := by rw [hres.own]
    have hlive : (k'.proc c).state = .runnable ∨ (k'.proc c).state = .running
        ∨ (k'.proc c).state = .sleeping := by
      rw [hstate]
      exact hruns.imp_right .inl
    have hpos : 0 < (k'.proc c).sz := by
      have hneg := hempty.1
      have hsum := hempty.2
      rw [hres.emptied hempty]
      omega
    have hzero := (hpages c hlive).1 0 rfl hpos
    rw [hres.pgdir] at hzero
    exact hgap 0 le_rfl (by decide) hzero

end Filled

theorem Boot.filled (h : Boot L k) : Filled L k := by
  obtain ⟨k₀, f, d, hon, hb⟩ := h.booted
  refine ⟨hb.core hon, fun c => ?_, fun c hl v hv => ?_⟩
  · by_cases hc : c = k.initproc
    · rw [hc, hb.first]
      rfl
    · rw [hb.other hc]
      rfl
  · obtain rfl := hb.eq_of_live hl
    rw [hb.first] at hv ⊢
    change v < (4096 + 4095) / 4096 at hv
    obtain rfl : v = 0 := Nat.lt_one_iff.mp hv
    exact hb.low

/-- **The pages below `sz` over every run** without `share_mem` in which no process gives back its
whole memory: they are present, `copyuvm` does not panic, and the next step keeps it that way exactly
if it does not give back a process's whole memory either. -/
theorem pages_present_iff
    (h : Runs.Reach (Boot L) (fun k e k' => PlainStep L k e k' ∧ ¬ e.Empties k) k) :
    PagesPresent k ∧ (∀ c, (k.proc c).Runs → fork L k c ≠ .error .copyuvm)
      ∧ ∀ e k', PlainStep L k e k' → (PagesPresent k' ↔ ¬ e.Empties k) := by
  have hfill : Filled L k := h.keeps (fun _ hb => hb.filled) fun _ _ _ hk hs => hk.step hs.1 hs.2
  refine ⟨hfill.pagesPresent, fun c hruns hpanic => ?_, fun e k' hs => ⟨fun hp hemp => ?_, fun hc => ?_⟩⟩
  · obtain ⟨v, hv, hp⟩ := fork_copyuvm hfill.core hruns.live hpanic
    exact hp (hfill.low c hruns.live v hv)
  · exact hfill.not_pagesPresent hs hemp hp
  · exact (hfill.step hs hc).pagesPresent

/-- The call that gives back the one page of the first process. -/
def sbrkPage : CInt := ⟨-4096, by decide, by decide⟩

theorem pages_present_iff_boot : ∃ k, Boot bareLinker k ∧ PagesPresent k
    ∧ ∃ k', PlainStep bareLinker k ⟨k.initproc, .open none, some (-1)⟩ k' ∧ PagesPresent k' := by
  obtain ⟨k, f, d, hboot, hb⟩ := exists_boot 0xDC00 (by decide) (by decide)
  have hstep : PlainStep bareLinker k ⟨k.initproc, .open none, some (-1)⟩ k :=
    ⟨⟨hb.runs, rfl⟩, by simp⟩
  obtain ⟨hp, -, hnext⟩ := pages_present_iff (.init hboot)
  exact ⟨k, hboot, hp, k, hstep, (hnext _ _ hstep).mpr fun ⟨n, hn, _⟩ => by simp at hn⟩

/-- **`sbrk(-4096)` by a process of one page**: the answer is `-1` and the size stays, but the page is
gone, and `fork` panics. -/
theorem sbrk_loses_pages : ∃ k k', Boot bareLinker k
    ∧ PlainStep bareLinker k ⟨k.initproc, .sbrk sbrkPage, some (-1)⟩ k'
    ∧ (k'.proc k.initproc).sz = 4096 ∧ ¬ PagesPresent k'
    ∧ fork bareLinker k' k.initproc = .error .copyuvm := by
  obtain ⟨k, f, d, hboot, hb⟩ := exists_boot 0xDC00 (by decide) (by decide)
  have hfill := hboot.filled
  have hl := hb.runs.live
  have hsz : (k.proc k.initproc).sz = 4096 := by rw [hb.first]; rfl
  have hemp : (k.proc k.initproc).Emptying sbrkPage := by
    rw [Proc.Emptying, hsz]
    decide
  obtain ⟨k', hr⟩ := sysSbrk_emptying hfill.core hl hemp
  have hres := sysSbrk_spec hfill.core hl hr
  have hstep : PlainStep bareLinker k ⟨k.initproc, .sbrk sbrkPage, some (-1)⟩ k' := by
    refine ⟨⟨hb.runs, ?_⟩, by simp⟩
    rw [syscall, hr]
    rfl
  have hsz' : (k'.proc k.initproc).sz = 4096 := (hres.emptied hemp).trans hsz
  have hgap := hres.ended.gap
  rw [if_pos hemp] at hgap
  obtain ⟨q, hq⟩ := exists_slot_ne k.initproc
  have hslot : (k'.proc q).state = .unused := by
    rw [hres.other hq, hb.other hq]
    rfl
  have hmem : 0xD000 ≤ k'.mem.free.length := by
    have hlen := hres.ended.moves.length
    have hboot := hb.length_free_le
    have hown := hgap.length_owned_le (Nat.zero_le _)
    rw [show (bareKernel 0xDC00).mem.free.length = 0xDC00 from List.length_range'] at hboot
    omega
  refine ⟨k, k', hboot, hstep, hsz', hfill.not_pagesPresent hstep ⟨_, rfl, hemp⟩, ?_⟩
  have hpages : (k'.proc k.initproc).pages = 1 := by rw [Proc.pages, hsz']
  refine fork_panics ((hres.trade hfill.core hl).core hfill.core) (hres.live.mpr hl) hslot ?_
    ⟨0, ?_, ?_⟩
  · rw [hpages, imageFrames]
    omega
  · rw [hpages]
    exact Nat.one_pos
  · rw [hres.pgdir]
    exact hgap 0 le_rfl (by decide)

end Xv6
