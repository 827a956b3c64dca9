import Xv6Ipc.Sched.Model

/-!
# Sched/Cpus — a running process is on one processor

A processor with the lock may be anywhere; one without it is idle, or on a process that is `RUNNING`:

    lock = c          c scans, or is on a process that lands, waits or leaves, or is back from one
    lock ≠ c          c is idle, or on a process that is RUNNING

so a process that is to be freed, a `ZOMBIE` found by somebody with the lock, is on no processor.
-/

namespace Xv6.Sched

open Runs
open Function (update_of_ne update_self update)

variable {n : Nat} {s s' : State n} {e : Event} {c c' : Fin n} {p q : Slot} {k : Cont} {l : Loc}
  {i : Nat}

/-! ## The invariant -/

/-- A process that has been on a processor, or may be, and is not `RUNNING`. -/
def Entry.Off (e : Entry) : Prop := e.state = .runnable ∨ e.state = .sleeping ∨ e.state = .zombie

theorem Entry.Off.not_running {e : Entry} (h : e.Off) : e.state ≠ .running := by
  rcases h with h | h | h <;> rw [h] <;> exact nofun

/-- The slot a process is about to fork into, and whether it has written its `parent`. -/
def Loc.forks : Loc → Option (Slot × Bool)
  | .run => none
  | .forking q b => some (q, b)

def Cont.forks : Cont → Option (Slot × Bool)
  | .yielded l => l.forks
  | _ => none

def Ctl.forks : Ctl → Option (Slot × Bool)
  | .at l => l.forks
  | .scan => none
  | .leave k | .out k | .land k => k.forks

theorem State.Runs.forks (h : s.Runs c p l) : (s.ctl p).forks = l.forks := by
  rw [h.ctl]
  rfl

/-- A field that is written back as it was. -/
theorem field_update {ι α β : Type*} [DecidableEq ι] {f : ι → α} {i : ι} {x : α} (g : α → β)
    (hx : g x = g (f i)) (j : ι) : g (update f i x j) = g (f j) := by
  by_cases hj : j = i
  · rw [hj, update_self, hx]
  · rw [update_of_ne hj]

/-- At the start nobody forks. -/
theorem Start.forks (h : Start s) (p : Slot) : (s.ctl p).forks = none := by
  rw [h.ctl, field_update Ctl.forks (by rfl)]
  rfl

/-- **Processor `c` is on process `p`.** -/
inductive Seat (s : State n) (c : Fin n) (p : Slot) : Prop
  | free (l : Loc) : s.ctl p = .at l → (s.table p).state = .running → s.lock ≠ some c → Seat s c p
  | scan : s.ctl p = .scan → (s.table p).state = .running → s.lock = some c → Seat s c p
  | land (k : Cont) : s.ctl p = .land k → (s.table p).state = .running → s.lock = some c → Seat s c p
  | leave (k : Cont) : s.ctl p = .leave k → (s.table p).Off → s.lock = some c → Seat s c p

/-- **Processors and processes are where they belong.** -/
structure Placed (s : State n) : Prop where
  idle : ∀ c, (s.cpu c).pc = .idle → (s.cpu c).proc = none ∧ (s.cpu c).cr3 = none ∧ s.lock ≠ some c
  scan : ∀ c i, (s.cpu c).pc = .scan i →
    (s.cpu c).proc = none ∧ (s.cpu c).cr3 = none ∧ s.lock = some c
  on : ∀ c p, (s.cpu c).pc = .on p →
    (s.cpu c).proc = some p ∧ (s.cpu c).cr3 = some p ∧ Seat s c p
  back : ∀ c p, (s.cpu c).pc = .back p →
    (s.cpu c).proc = some p ∧ (s.cpu c).cr3 = some p ∧ s.lock = some c ∧ (s.table p).Off
  unique : ∀ c c' p, (s.cpu c).proc = some p → (s.cpu c').proc = some p → c = c'
  running : ∀ p, (s.table p).state = .running → ∃ c, (s.cpu c).pc = .on p
  off : ∀ p, (s.table p).Off →
    (∃ k, s.ctl p = .out k) ∨ ∃ c k, (s.cpu c).pc = .on p ∧ s.ctl p = .leave k
  embryo : ∀ p q b, (s.ctl p).forks = some (q, b) → (s.table q).state = .embryo
  linked : ∀ p q, (s.ctl p).forks = some (q, true) → s.ctl q = .out .enter
  forks : ∀ p p' q b b', (s.ctl p).forks = some (q, b) → (s.ctl p').forks = some (q, b') → p = p'

/-- A process that is where it was, and runs or is off as before. -/
def Stays (s s' : State n) (p : Slot) : Prop := s'.ctl p = s.ctl p
  ∧ ((s.table p).state = .running → (s'.table p).state = .running)
  ∧ ((s.table p).Off → (s'.table p).Off)

theorem stays (hctl : s'.ctl p = s.ctl p) (htable : s'.table p = s.table p) : Stays s s' p :=
  ⟨hctl, htable ▸ id, htable ▸ id⟩

/-- What keeps a processor on its process. -/
theorem Seat.congr (h : Seat s c p) (hp : Stays s s' p)
    (hlock : s'.lock = some c ↔ s.lock = some c) : Seat s' c p := by
  obtain ⟨hctl, hrun, hoff⟩ := hp
  rcases h with ⟨l, h₁, h₂, h₃⟩ | ⟨h₁, h₂, h₃⟩ | ⟨k, h₁, h₂, h₃⟩ | ⟨k, h₁, h₂, h₃⟩
  · exact .free l (hctl.trans h₁) (hrun h₂) (mt hlock.mp h₃)
  · exact .scan (hctl.trans h₁) (hrun h₂) (hlock.mpr h₃)
  · exact .land k (hctl.trans h₁) (hrun h₂) (hlock.mpr h₃)
  · exact .leave k (hctl.trans h₁) (hoff h₂) (hlock.mpr h₃)

/-- What the invariant says of one processor. -/
def Home (s : State n) (c : Fin n) : Prop :=
  match (s.cpu c).pc with
  | .idle => (s.cpu c).proc = none ∧ (s.cpu c).cr3 = none ∧ s.lock ≠ some c
  | .scan _ => (s.cpu c).proc = none ∧ (s.cpu c).cr3 = none ∧ s.lock = some c
  | .on p => (s.cpu c).proc = some p ∧ (s.cpu c).cr3 = some p ∧ Seat s c p
  | .back p =>
    (s.cpu c).proc = some p ∧ (s.cpu c).cr3 = some p ∧ s.lock = some c ∧ (s.table p).Off

/-- **A processor that does not move**, with a process that does not either. -/
theorem Home.congr (h : Home s c) (hcpu : s'.cpu c = s.cpu c)
    (hlock : s'.lock = some c ↔ s.lock = some c)
    (hp : ∀ p, (s.cpu c).proc = some p → Stays s s' p) : Home s' c := by
  rw [Home, hcpu]
  rw [Home] at h
  split at h
  · exact ⟨h.1, h.2.1, mt hlock.mp h.2.2⟩
  · exact ⟨h.1, h.2.1, hlock.mpr h.2.2⟩
  · exact ⟨h.1, h.2.1, h.2.2.congr (hp _ h.1) hlock⟩
  · exact ⟨h.1, h.2.1, hlock.mpr h.2.2.1, (hp _ h.1).2.2 h.2.2.2⟩

theorem lock_ne {o : Option (Fin n)} (ho : o = none ∨ o = some c) (hne : c' ≠ c) : o ≠ some c' := by
  rintro rfl
  rcases ho with ho | ho
  · exact nomatch ho
  · exact hne (Option.some.inj ho)

/-- A lock that only processor `c` may take or give up. -/
def LockOf (c : Fin n) (s s' : State n) : Prop := ∀ c', c' ≠ c → (s'.lock = some c' ↔ s.lock = some c')

theorem lockOf (hlock : s.lock = none ∨ s.lock = some c) (hlock' : s'.lock = none ∨ s'.lock = some c) :
    LockOf c s s' := fun _ hne => iff_of_false (lock_ne hlock' hne) (lock_ne hlock hne)

theorem lockOf_eq (h : s'.lock = s.lock) : LockOf c s s' := fun _ _ => by rw [h]

namespace Placed

theorem home (h : Placed s) (c : Fin n) : Home s c := by
  rw [Home]
  split
  · exact h.idle c ‹_›
  · exact h.scan c _ ‹_›
  · exact h.on c _ ‹_›
  · exact h.back c _ ‹_›

/-- The invariant, processor by processor. -/
theorem of_home (h : ∀ c, Home s c)
    (unique : ∀ c c' p, (s.cpu c).proc = some p → (s.cpu c').proc = some p → c = c')
    (running : ∀ p, (s.table p).state = .running → ∃ c, (s.cpu c).pc = .on p)
    (off : ∀ p, (s.table p).Off →
      (∃ k, s.ctl p = .out k) ∨ ∃ c k, (s.cpu c).pc = .on p ∧ s.ctl p = .leave k)
    (embryo : ∀ p q b, (s.ctl p).forks = some (q, b) → (s.table q).state = .embryo)
    (linked : ∀ p q, (s.ctl p).forks = some (q, true) → s.ctl q = .out .enter)
    (forks : ∀ p p' q b b', (s.ctl p).forks = some (q, b) → (s.ctl p').forks = some (q, b') → p = p') :
    Placed s := by
  refine ⟨fun c hc => ?_, fun c i hc => ?_, fun c p hc => ?_, fun c p hc => ?_, unique, running, off,
    embryo, linked, forks⟩
  all_goals
    have hhome := h c
    rw [Home, hc] at hhome
    exact hhome

theorem of_start (h : Start s) : Placed s := by
  refine .of_home (fun c => ?_) (fun c c' p hp => ?_) (fun p hp => ?_) (fun p hp => .inl ?_)
    (fun p q b hf => ?_) (fun p q hf => ?_) (fun p p' q b b' hf => ?_)
  · rw [Home, h.cpu, h.lock]
    exact ⟨rfl, rfl, nofun⟩
  · rw [h.cpu] at hp
    exact nomatch hp
  · by_cases hinit : p = initproc
    · rw [h.table, hinit, update_self] at hp
      exact nomatch hp
    · rw [h.table, update_of_ne hinit] at hp
      exact nomatch hp
  · by_cases hinit : p = initproc
    · exact ⟨.enter, by rw [h.ctl, hinit, update_self]⟩
    · exact ⟨.dead, by rw [h.ctl, update_of_ne hinit]⟩
  all_goals exact nomatch (h.forks p).symm.trans hf

/-! ### Where a processor can be -/

/-- A processor with a process is on it or back from it. -/
theorem pc_of_proc (h : Placed s) (hp : (s.cpu c).proc = some p) :
    (s.cpu c).pc = .on p ∨ (s.cpu c).pc = .back p := by
  cases hpc : (s.cpu c).pc with
  | idle => exact nomatch (h.idle c hpc).1.symm.trans hp
  | scan i => exact nomatch (h.scan c i hpc).1.symm.trans hp
  | on q => exact .inl (by rw [Option.some.inj ((h.on c q hpc).1.symm.trans hp)])
  | back q => exact .inr (by rw [Option.some.inj ((h.back c q hpc).1.symm.trans hp)])

/-- A processor without the lock is idle or on a process that runs. -/
theorem seat_of_unlocked (h : Placed s) (hlock : s.lock ≠ some c) (hp : (s.cpu c).proc = some p) :
    (s.cpu c).pc = .on p ∧ (s.table p).state = .running ∧ ∃ l, s.ctl p = .at l := by
  rcases h.pc_of_proc hp with hpc | hpc
  · refine ⟨hpc, ?_⟩
    rcases (h.on c p hpc).2.2 with ⟨l, hctl, hrun, -⟩ | ⟨-, -, hl⟩ | ⟨k, -, -, hl⟩ | ⟨k, -, -, hl⟩
    · exact ⟨hrun, l, hctl⟩
    all_goals exact absurd hl hlock
  · exact absurd (h.back c p hpc).2.2.1 hlock

/-- A process on a processor runs, or is about to leave. -/
theorem running_or_off (h : Placed s) (hp : (s.cpu c).proc = some p) :
    (s.table p).state = .running ∨ (s.table p).Off := by
  rcases h.pc_of_proc hp with hpc | hpc
  · rcases (h.on c p hpc).2.2 with ⟨_, _, hrun, _⟩ | ⟨_, hrun, _⟩ | ⟨_, _, hrun, _⟩ | ⟨_, _, hoff, _⟩
    · exact .inl hrun
    · exact .inl hrun
    · exact .inl hrun
    · exact .inr hoff
  · exact .inr (h.back c p hpc).2.2.2

/-- A slot being filled is on no processor. -/
theorem not_on_embryo (h : Placed s) (hq : (s.table q).state = .embryo ∨ (s.table q).state = .unused)
    (c : Fin n) : (s.cpu c).proc ≠ some q := by
  intro hp
  rcases h.running_or_off hp with hrun | hrun | hrun | hrun <;> rcases hq with hq | hq <;>
    exact nomatch hq.symm.trans hrun

/-! ### What changes -/

/-- What a process needs to fork into a slot: it is an embryo that nobody else has. -/
def MayFork (s : State n) (p : Slot) (k : Ctl) : Prop := ∀ q b, k.forks = some (q, b) →
  (s.table q).state = .embryo ∧ (∀ r b', (s.ctl r).forks = some (q, b') → r = p)
    ∧ (b = true → s.ctl q = .out .enter)

theorem mayFork_of_none {k : Ctl} (hk : k.forks = none) : MayFork s p k :=
  fun _ _ hf => nomatch hk.symm.trans hf

theorem mayFork_of_eq (h : Placed s) {k : Ctl} (hk : k.forks = (s.ctl p).forks) : MayFork s p k := by
  intro q b hf
  rw [hk] at hf
  exact ⟨h.embryo p q b hf, fun r b' hr => h.forks r p q b' b hr hf,
    fun hb => h.linked p q (hb ▸ hf)⟩

/-- **A process moves on its processor**: everything else is as it was. -/
theorem reseat (h : Placed s) (hpc : (s.cpu c).pc = .on p) (hcpu : s'.cpu = s.cpu)
    (hlock : LockOf c s s') (htable : ∀ q, q ≠ p → s'.table q = s.table q) {m : Ctl}
    (hm : s'.ctl = update s.ctl p m) (hforks : MayFork s p m) (hseat : Seat s' c p) : Placed s' := by
  have hctl : ∀ q, q ≠ p → s'.ctl q = s.ctl q := fun q hq => by rw [hm, update_of_ne hq]
  have hself : s'.ctl p = m := by rw [hm, update_self]
  have hon := h.on c p hpc
  have hne : ∀ {c' q}, c' ≠ c → (s.cpu c').proc = some q → q ≠ p := fun hc hq he =>
    hc (h.unique _ _ _ hq (he ▸ hon.1))
  have hembryo : ∀ {q}, (s.table q).state = .embryo → q ≠ p := fun hq he =>
    h.not_on_embryo (.inl hq) c (he ▸ hon.1)
  -- slots that processes fork into are as before, up to this process
  have hcase : ∀ {r q b}, (s'.ctl r).forks = some (q, b) → (s.table q).state = .embryo
      ∧ (b = true → s.ctl q = .out .enter) ∧ ∀ r' b', (s'.ctl r').forks = some (q, b') → r' = r := by
    intro r q b hr
    by_cases hrp : r = p
    · subst hrp
      obtain ⟨h₁, h₂, h₃⟩ := hforks q b (hself ▸ hr)
      refine ⟨h₁, h₃, fun r' b' hr' => ?_⟩
      by_contra hne
      rw [hctl r' hne] at hr'
      exact hne (h₂ r' b' hr')
    · rw [hctl r hrp] at hr
      refine ⟨h.embryo r q b hr, fun hb => h.linked r q (hb ▸ hr), fun r' b' hr' => ?_⟩
      by_cases hrp' : r' = p
      · subst hrp'
        exact absurd ((hforks q b' (hself ▸ hr')).2.1 r b hr) hrp
      · rw [hctl r' hrp'] at hr'
        exact h.forks r' r q b' b hr' hr
  refine .of_home (fun c' => ?_) (by rw [hcpu]; exact h.unique) (fun q hq => ?_) (fun q hq => ?_)
    (fun r q b hr => ?_) (fun r q hr => ?_) (fun r r' q b b' hr hr' => ?_)
  · by_cases hcc : c' = c
    · rw [hcc, Home, hcpu, hpc]
      exact ⟨hon.1, hon.2.1, hseat⟩
    · exact (h.home c').congr (by rw [hcpu]) (hlock c' hcc) fun q hq =>
        stays (hctl q (hne hcc hq)) (htable q (hne hcc hq))
  · rw [hcpu]
    by_cases hqp : q = p
    · exact ⟨c, hqp ▸ hpc⟩
    · rw [htable q hqp] at hq
      exact h.running q hq
  · rw [hcpu]
    by_cases hqp : q = p
    · subst hqp
      rcases hseat with ⟨l, -, hrun, -⟩ | ⟨-, hrun, -⟩ | ⟨k, -, hrun, -⟩ | ⟨k, hk, -, -⟩
      · exact absurd hrun hq.not_running
      · exact absurd hrun hq.not_running
      · exact absurd hrun hq.not_running
      · exact .inr ⟨c, k, hpc, hk⟩
    · rw [htable q hqp] at hq
      rw [hctl q hqp]
      exact h.off q hq
  · obtain ⟨hq, -, -⟩ := hcase hr
    rw [htable q (hembryo hq)]
    exact hq
  · obtain ⟨hq, hlinked, -⟩ := hcase hr
    rw [hctl q (hembryo hq)]
    exact hlinked rfl
  · exact (hcase hr').2.2 r b hr

/-- **A slot that is on no processor changes.** -/
theorem edit (h : Placed s) (hq : ∀ c, (s.cpu c).proc ≠ some q) (hcpu : s'.cpu = s.cpu)
    (hlock : s'.lock = s.lock) (htable : ∀ p, p ≠ q → s'.table p = s.table p)
    (hctl : ∀ p, p ≠ q → s'.ctl p = s.ctl p) (hrun : (s'.table q).state ≠ .running)
    (hforks : (s'.ctl q).forks = (s.ctl q).forks ∨ (s'.ctl q).forks = none)
    (hembryo : (s'.table q).state = .embryo ∨ ∀ p b, (s.ctl p).forks ≠ some (q, b))
    (hout : (s'.table q).Off → ∃ k, s'.ctl q = .out k)
    (hlinked : ∀ p, (s.ctl p).forks = some (q, true) → s'.ctl q = .out .enter) : Placed s' := by
  have hforks' : ∀ {r p b}, (s'.ctl r).forks = some (p, b) → (s.ctl r).forks = some (p, b) := by
    intro r p b hr
    by_cases hrq : r = q
    · rw [hrq] at hr ⊢
      rcases hforks with hf | hf <;> rw [hf] at hr
      · exact hr
      · exact nomatch hr
    · rw [← hctl r hrq]
      exact hr
  refine .of_home (fun c => (h.home c).congr (by rw [hcpu]) (by rw [hlock]) fun p hp => ?_)
    (by rw [hcpu]; exact h.unique) (fun p hp => ?_) (fun p hp => ?_)
    (fun r p b hr => ?_) (fun r p hr => ?_) (fun r r' p b b' hr hr' => ?_)
  · have hpq : p ≠ q := fun he => hq c (he ▸ hp)
    exact stays (hctl p hpq) (htable p hpq)
  · have hpq : p ≠ q := fun he => hrun (he ▸ hp)
    rw [htable p hpq] at hp
    rw [hcpu]
    exact h.running p hp
  · by_cases hpq : p = q
    · subst hpq
      exact .inl (hout hp)
    · rw [htable p hpq] at hp
      rw [hctl p hpq, hcpu]
      exact h.off p hp
  · have hr := hforks' hr
    by_cases hpq : p = q
    · subst hpq
      exact hembryo.resolve_right fun hno => hno r b hr
    · rw [htable p hpq]
      exact h.embryo r p b hr
  · have hr := hforks' hr
    by_cases hpq : p = q
    · subst hpq
      exact hlinked r hr
    · rw [hctl p hpq]
      exact h.linked r p hr
  · exact h.forks r r' p b b' (hforks' hr) (hforks' hr')

end Placed

/-- Nothing but that some sleepers are woken, as far as the states go. -/
def Stirred (T T' : Table) : Prop :=
  ∀ q, (T' q).state = (T q).state ∨ (T q).state = .sleeping ∧ (T' q).state = .runnable

theorem Stirred.running {T T' : Table} (h : Stirred T T') :
    (T' q).state = .running ↔ (T q).state = .running := by
  rcases h q with h | ⟨h, h'⟩
  · rw [h]
  · rw [h, h']
    decide

theorem Stirred.embryo {T T' : Table} (h : Stirred T T') :
    (T' q).state = .embryo ↔ (T q).state = .embryo := by
  rcases h q with h | ⟨h, h'⟩
  · rw [h]
  · rw [h, h']
    decide

theorem Stirred.off {T T' : Table} (h : Stirred T T') : (T' q).Off ↔ (T q).Off := by
  rcases h q with h | ⟨h, h'⟩
  · rw [Entry.Off, Entry.Off, h]
  · rw [Entry.Off, Entry.Off, h, h']
    decide

/-- **Sleepers are woken.** -/
theorem Placed.stir (h : Placed s) (hcpu : s'.cpu = s.cpu) (hlock : s'.lock = s.lock)
    (hctl : s'.ctl = s.ctl) (hstir : Stirred s.table s'.table) : Placed s' := by
  refine .of_home (fun c => (h.home c).congr (by rw [hcpu]) (by rw [hlock]) fun p _ =>
      ⟨by rw [hctl], hstir.running.mpr, hstir.off.mpr⟩) (by rw [hcpu]; exact h.unique)
    (fun p hp => ?_) (fun p hp => ?_) (fun r p b hr => ?_) ?_ ?_
  · rw [hcpu]
    exact h.running p (hstir.running.mp hp)
  · rw [hcpu, hctl]
    exact h.off p (hstir.off.mp hp)
  · rw [hctl] at hr
    exact hstir.embryo.mpr (h.embryo r p b hr)
  · rw [hctl]
    exact h.linked
  · rw [hctl]
    exact h.forks

/-- **A processor moves in its scheduler.** -/
theorem Placed.rehome (h : Placed s) {x : Cpu} (hpc : ∀ p, (s.cpu c).pc ≠ .on p)
    (hlock : LockOf c s s') (hcpu : s'.cpu = update s.cpu c x) (htable : s'.table = s.table) (hctl : s'.ctl = s.ctl)
    (hproc : x.proc = none) (hcr3 : x.cr3 = none)
    (hx : x.pc = .idle ∧ s'.lock = none ∨ (∃ i, x.pc = .scan i) ∧ s'.lock = some c) : Placed s' := by
  have hself : s'.cpu c = x := by rw [hcpu, update_self]
  have hother : ∀ {c'}, c' ≠ c → s'.cpu c' = s.cpu c' := fun hc => by rw [hcpu, update_of_ne hc]
  refine .of_home (fun c' => ?_) (fun c₁ c₂ p h₁ h₂ => ?_) (fun p hp => ?_) (fun p hp => ?_) ?_ ?_ ?_
  · by_cases hcc : c' = c
    · rw [hcc, Home, hself]
      rcases hx with ⟨hx, hl⟩ | ⟨⟨i, hx⟩, hl⟩
      · rw [hx, hl]
        exact ⟨hproc, hcr3, nofun⟩
      · rw [hx]
        exact ⟨hproc, hcr3, hl⟩
    · exact (h.home c').congr (hother hcc) (hlock c' hcc) fun p _ =>
        stays (by rw [hctl]) (by rw [htable])
  · have hne : ∀ {c'}, (s'.cpu c').proc = some p → c' ≠ c := fun hp hc => by
      rw [hc, hself, hproc] at hp
      exact nomatch hp
    rw [hother (hne h₁)] at h₁
    rw [hother (hne h₂)] at h₂
    exact h.unique c₁ c₂ p h₁ h₂
  · rw [htable] at hp
    obtain ⟨c', hc'⟩ := h.running p hp
    have hcc : c' ≠ c := fun he => hpc p (he ▸ hc')
    exact ⟨c', by rw [hother hcc]; exact hc'⟩
  · rw [htable] at hp
    rw [hctl]
    rcases h.off p hp with hk | ⟨c', k, hc', hk⟩
    · exact .inl hk
    · have hcc : c' ≠ c := fun he => hpc p (he ▸ hc')
      exact .inr ⟨c', k, by rw [hother hcc]; exact hc', hk⟩
  · rw [hctl, htable]
    exact h.embryo
  · rw [hctl]
    exact h.linked
  · rw [hctl]
    exact h.forks

/-- A process that may be picked is on no processor, and its context is saved. -/
theorem Placed.runnable (h : Placed s) (hpc : (s.cpu c).pc = .scan i)
    (hp : (s.table p).state = .runnable) :
    (∃ k, s.ctl p = .out k) ∧ ∀ c', (s.cpu c').proc ≠ some p := by
  have hlock := (h.scan c i hpc).2.2
  have hno : ∀ c', (s.cpu c').proc ≠ some p := fun c' hc' => by
    by_cases hcc : c' = c
    · rw [hcc, (h.scan c i hpc).1] at hc'
      exact nomatch hc'
    · obtain ⟨-, hrun, -⟩ := h.seat_of_unlocked (lock_ne (.inr hlock) hcc) hc'
      exact nomatch hp.symm.trans hrun
  refine ⟨?_, hno⟩
  rcases h.off p (.inl hp) with hk | ⟨c', k, hc', -⟩
  · exact hk
  · exact absurd (h.on c' p hc').1 (hno c')

/-- **A processor with the lock moves on to a process, or back from it.** -/
theorem Placed.move (h : Placed s) {x : Cpu} (hlock : s.lock = some c) (hlock' : s'.lock = s.lock)
    (hpc : ∀ q, (s.cpu c).pc = .on q → q = p) (hno : ∀ c', c' ≠ c → (s.cpu c').proc ≠ some p)
    (hembryo : (s.table p).state ≠ .embryo) (hcpu : s'.cpu = update s.cpu c x)
    (htable : ∀ q, q ≠ p → s'.table q = s.table q) (hctl : ∀ q, q ≠ p → s'.ctl q = s.ctl q)
    (hforks : (s'.ctl p).forks = (s.ctl p).forks) (hproc : x.proc = some p) (hcr3 : x.cr3 = some p)
    (hx : x.pc = .on p ∧ Seat s' c p ∧ (s'.table p).state = .running
      ∨ x.pc = .back p ∧ (s'.table p).Off ∧ ∃ k, s'.ctl p = .out k) : Placed s' := by
  have hself : s'.cpu c = x := by rw [hcpu, update_self]
  have hother : ∀ {c'}, c' ≠ c → s'.cpu c' = s.cpu c' := fun hc => by rw [hcpu, update_of_ne hc]
  have hforks' : ∀ r, (s'.ctl r).forks = (s.ctl r).forks := fun r => by
    by_cases hr : r = p
    · rw [hr, hforks]
    · rw [hctl r hr]
  have hne : ∀ {r q b}, (s.ctl r).forks = some (q, b) → q ≠ p := fun hr he =>
    hembryo (he ▸ h.embryo _ _ _ hr)
  refine .of_home (fun c' => ?_) (fun c₁ c₂ q h₁ h₂ => ?_) (fun q hq => ?_) (fun q hq => ?_)
    (fun r q b hr => ?_) (fun r q hr => ?_) (fun r r' q b b' hr hr' => ?_)
  · by_cases hcc : c' = c
    · rw [hcc, Home, hself]
      rcases hx with ⟨hx, hseat, -⟩ | ⟨hx, hoff, -⟩
      · rw [hx]
        exact ⟨hproc, hcr3, hseat⟩
      · rw [hx]
        exact ⟨hproc, hcr3, hlock'.trans hlock, hoff⟩
    · refine (h.home c').congr (hother hcc) (by rw [hlock']) fun q hq => ?_
      have hqp : q ≠ p := fun he => hno c' hcc (he ▸ hq)
      exact stays (hctl q hqp) (htable q hqp)
  · have hcase : ∀ {c'}, (s'.cpu c').proc = some q → c' = c ∧ q = p
        ∨ c' ≠ c ∧ (s.cpu c').proc = some q := fun {c'} hp => by
      by_cases hcc : c' = c
      · rw [hcc, hself, hproc] at hp
        exact .inl ⟨hcc, (Option.some.inj hp).symm⟩
      · rw [hother hcc] at hp
        exact .inr ⟨hcc, hp⟩
    rcases hcase h₁ with ⟨hc₁, hq⟩ | ⟨hc₁, h₁⟩ <;> rcases hcase h₂ with ⟨hc₂, hq'⟩ | ⟨hc₂, h₂⟩
    · exact hc₁.trans hc₂.symm
    · exact absurd (hq ▸ h₂) (hno c₂ hc₂)
    · exact absurd (hq' ▸ h₁) (hno c₁ hc₁)
    · exact h.unique c₁ c₂ q h₁ h₂
  · by_cases hqp : q = p
    · subst hqp
      rcases hx with ⟨hx, -⟩ | ⟨-, hoff, -⟩
      · exact ⟨c, by rw [hself, hx]⟩
      · exact absurd hq hoff.not_running
    · rw [htable q hqp] at hq
      obtain ⟨c', hc'⟩ := h.running q hq
      have hcc : c' ≠ c := fun he => hqp (hpc q (he ▸ hc'))
      exact ⟨c', by rw [hother hcc]; exact hc'⟩
  · by_cases hqp : q = p
    · subst hqp
      rcases hx with ⟨-, -, hrun⟩ | ⟨-, -, hk⟩
      · exact absurd hrun hq.not_running
      · exact .inl hk
    · rw [htable q hqp] at hq
      rw [hctl q hqp]
      rcases h.off q hq with hk | ⟨c', k, hc', hk⟩
      · exact .inl hk
      · have hcc : c' ≠ c := fun he => hqp (hpc q (he ▸ hc'))
        exact .inr ⟨c', k, by rw [hother hcc]; exact hc', hk⟩
  · rw [hforks'] at hr
    rw [htable q (hne hr)]
    exact h.embryo r q b hr
  · rw [hforks'] at hr
    rw [hctl q (hne hr)]
    exact h.linked r q hr
  · rw [hforks'] at hr hr'
    exact h.forks r r' q b b' hr hr'

/-! ### Every step -/

theorem stirred_wakeup1 (T : Table) (chan : Chan) : Stirred T (wakeup1 T chan) := fun q => by
  rw [wakeup1]
  split
  · exact .inr ⟨(‹_ ∧ _›).1, rfl⟩
  · exact .inl rfl

theorem Stirred.refl (T : Table) : Stirred T T := fun _ => .inl rfl

theorem Stirred.trans {T T' T'' : Table} (h : Stirred T T') (h' : Stirred T' T'') : Stirred T T'' := by
  intro q
  rcases h q with h | ⟨h, h₁⟩ <;> rcases h' q with h' | ⟨h', h₂⟩
  · exact .inl (h'.trans h)
  · exact .inr ⟨h.symm.trans h', h₂⟩
  · exact .inr ⟨h, h'.trans h₁⟩
  · exact nomatch h₁.symm.trans h'

theorem stirred_kill (T : Table) (pid : Int) : Stirred T (kill T pid).2 := by
  rw [kill]
  split
  · exact .refl T
  · rename_i q hq
    intro r
    by_cases hr : r = q
    · subst hr
      simp only [update_self]
      split
      · exact .inr ⟨‹_›, rfl⟩
      · exact .inl rfl
    · exact .inl (congrArg Entry.state (update_of_ne hr _ _))

theorem stirred_adoptTurn (T : Table) (p q : Slot) : Stirred T (adoptTurn p T q) := by
  have hpar : Stirred T (update T q { T q with parent := some initproc }) :=
    fun r => .inl (field_update Entry.state (by rfl) r)
  rw [adoptTurn]
  split
  · dsimp only
    split
    · exact hpar.trans (stirred_wakeup1 _ _)
    · exact hpar
  · exact .refl T

theorem stirred_foldl_adoptTurn (p : Slot) (l : List Slot) (T : Table) :
    Stirred T (l.foldl (adoptTurn p) T) := by
  induction l generalizing T with
  | nil => exact .refl T
  | cons q l ih => exact (stirred_adoptTurn T p q).trans (ih _)

theorem stirred_adopt (T : Table) (p : Slot) : Stirred T (adopt T p) := by
  rw [adopt_eq]
  exact stirred_foldl_adoptTurn p _ T

theorem stirred_wakeParent (T : Table) (p : Slot) : Stirred T (wakeParent T p) := by
  rw [wakeParent]
  split
  · exact .refl T
  · exact stirred_wakeup1 T _

/-- What the control point of a process on a processor tells. -/
theorem Placed.seat (h : Placed s) (hpc : (s.cpu c).pc = .on p) :
    match s.ctl p with
    | .at _ => (s.table p).state = .running ∧ s.lock ≠ some c
    | .leave _ => (s.table p).Off ∧ s.lock = some c
    | .out _ => False
    | _ => (s.table p).state = .running ∧ s.lock = some c := by
  rcases (h.on c p hpc).2.2 with ⟨l, hk, h₁, h₂⟩ | ⟨hk, h₁, h₂⟩ | ⟨k, hk, h₁, h₂⟩ | ⟨k, hk, h₁, h₂⟩ <;>
    exact hk ▸ ⟨h₁, h₂⟩

/-- A process that runs without the lock. -/
theorem Placed.runs (h : Placed s) (hr : s.Runs c p l) :
    (s.table p).state = .running ∧ s.lock ≠ some c := by
  have hseat := h.seat hr.pc
  rwa [hr.ctl] at hseat

/-- A process that scans the table has the lock. -/
theorem Placed.scans (h : Placed s) (hpc : (s.cpu c).pc = .on p) (hk : s.ctl p = .scan) :
    (s.table p).state = .running ∧ s.lock = some c := by
  have hseat := h.seat hpc
  rwa [hk] at hseat

/-- So has one that lands. -/
theorem Placed.lands (h : Placed s) (hpc : (s.cpu c).pc = .on p) (hk : s.ctl p = .land k) :
    (s.table p).state = .running ∧ s.lock = some c := by
  have hseat := h.seat hpc
  rwa [hk] at hseat

/-- …and one that leaves. -/
theorem Placed.leaves (h : Placed s) (hpc : (s.cpu c).pc = .on p) (hk : s.ctl p = .leave k) :
    (s.table p).Off ∧ s.lock = some c := by
  have hseat := h.seat hpc
  rwa [hk] at hseat

/-- A child that `wait` frees is on no processor. -/
theorem Placed.not_on_zombie (h : Placed s) (hpc : (s.cpu c).pc = .on p) (hk : s.ctl p = .scan)
    (hq : (s.table q).state = .zombie) (c' : Fin n) : (s.cpu c').proc ≠ some q := by
  obtain ⟨hrun, hlock⟩ := h.scans hpc hk
  intro hc'
  by_cases hcc : c' = c
  · rw [hcc, (h.on c p hpc).1] at hc'
    rw [Option.some.inj hc', hq] at hrun
    exact nomatch hrun
  · obtain ⟨-, hrun', -⟩ := h.seat_of_unlocked (lock_ne (.inr hlock) hcc) hc'
    exact nomatch hq.symm.trans hrun'

theorem zombieOf_spec {T : Table} (h : zombieOf T p = some q) :
    (T q).parent = some p ∧ (T q).state = .zombie := by
  simpa using List.find?_some h

theorem firstUnused_spec {T : Table} (h : firstUnused T = some q) : (T q).state = .unused := by
  simpa using List.find?_some h

theorem exitTable_state (T : Table) (p : Slot) : (exitTable T p p).state = .zombie := by
  rw [exitTable, update_self]

theorem exitTable_of_ne (T : Table) (hne : q ≠ p) :
    exitTable T p q = adopt (wakeParent T p) p q := by
  rw [exitTable, update_of_ne hne]

/-- Nothing but a field that does not say where a process is. -/
theorem Placed.same (h : Placed s) (hcpu : s'.cpu = s.cpu) (hlock : s'.lock = s.lock)
    (hctl : s'.ctl = s.ctl) (hstate : ∀ q, (s'.table q).state = (s.table q).state) : Placed s' :=
  h.stir hcpu hlock hctl fun q => .inl (hstate q)

/-- A process that forks is another than its child. -/
theorem Placed.forking (h : Placed s) {b : Bool} (hr : s.Runs c p (.forking q b)) :
    (s.table q).state = .embryo ∧ (∀ c, (s.cpu c).proc ≠ some q) ∧ q ≠ p := by
  have hembryo := h.embryo p q b hr.forks
  have hno := h.not_on_embryo (.inl hembryo)
  exact ⟨hembryo, hno, fun he => hno c (he ▸ (h.on c p hr.pc).1)⟩

/-- `fork` is done with its slot, which changes as it likes. -/
theorem Placed.unfork (h : Placed s) {b : Bool} {x : Entry} (hr : s.Runs c p (.forking q b))
    (hrun : x.state ≠ .running) (hout : x.Off → b = true) :
    Placed ((s.put q x).goto p (.at .run)) := by
  obtain ⟨hembryo, hno, hqp⟩ := h.forking hr
  have h₁ : Placed (s.goto p (.at .run)) :=
    h.reseat hr.pc rfl (lockOf_eq rfl) (fun _ _ => rfl) rfl (mayFork_of_none rfl)
      (.free .run (by simp) (h.runs hr).1 (h.runs hr).2)
  have hnone : ∀ r b', ((s.goto p (.at .run)).ctl r).forks ≠ some (q, b') := by
    intro r b' hf
    by_cases hrp : r = p
    · rw [hrp, State.goto_ctl, update_self] at hf
      exact nomatch hf
    · rw [State.goto_ctl, update_of_ne hrp] at hf
      exact hrp (h.forks r p q b' b hf hr.forks)
  refine h₁.edit hno rfl rfl (fun r hr => update_of_ne hr _ _) (fun _ _ => rfl) ?_ (.inl rfl)
    (.inr hnone) (fun hoff => ?_) fun r hr => absurd hr (hnone r true)
  · rw [State.goto_table, State.put_table, update_self]
    exact hrun
  · rw [State.goto_table, State.put_table, update_self] at hoff
    refine ⟨.enter, ?_⟩
    rw [State.goto_ctl, State.put_ctl, update_of_ne hqp]
    exact h.linked p q (hout hoff ▸ hr.forks)

/-- **Every step keeps processors and processes where they belong.** -/
theorem Placed.step (h : Placed s) (hstep : Step s e s') : Placed s' := by
  cases hstep with
  | @acquire c hpc hlock =>
    exact h.rehome (c := c) (by rw [hpc]; exact nofun) (lockOf (.inl hlock) (.inr rfl)) rfl rfl rfl
      (h.idle c hpc).1 (h.idle c hpc).2.1 (.inr ⟨⟨0, rfl⟩, rfl⟩)
  | @skip c i hi hpc hne =>
    obtain ⟨hproc, hcr3, hlock⟩ := h.scan c i hpc
    exact h.rehome (c := c) (by rw [hpc]; exact nofun) (lockOf_eq rfl) rfl rfl rfl
      hproc hcr3 (.inr ⟨⟨_, rfl⟩, hlock⟩)
  | @pick c i hi hpc hrun =>
    obtain ⟨⟨k, hk⟩, hno⟩ := h.runnable hpc hrun
    have hlock := (h.scan c i hpc).2.2
    refine h.move (c := c) (p := ⟨i, hi⟩) hlock rfl (by rw [hpc]; exact nofun) (fun c' _ => hno c')
      (by rw [hrun]; exact nofun) rfl (fun q hq => update_of_ne hq _ _)
      (fun q hq => update_of_ne hq _ _) ?_ rfl rfl (.inl ⟨rfl, .land k ?_ ?_ hlock, ?_⟩)
    · simp [hk, Ctl.restore, Ctl.forks]
    · simp [hk, Ctl.restore]
    · simp
    · simp
  | @release c hpc =>
    obtain ⟨hproc, hcr3, hlock⟩ := h.scan c _ hpc
    exact h.rehome (c := c) (by rw [hpc]; exact nofun) (lockOf (.inr hlock) (.inl rfl)) rfl rfl rfl
      hproc hcr3 (.inl ⟨rfl, rfl⟩)
  | @swtch c p k hpc hk =>
    obtain ⟨hoff, hlock⟩ := h.leaves hpc hk
    obtain ⟨hproc, hcr3, -⟩ := h.on c p hpc
    refine h.move (c := c) (p := p) hlock rfl (fun q hq => Where.on.inj (hq.symm.trans hpc))
      (fun c' hc hp => hc (h.unique _ _ _ hp hproc)) ?_ rfl (fun _ _ => rfl)
      (fun q hq => update_of_ne hq _ _) ?_ hproc hcr3 (.inr ⟨rfl, hoff, k, ?_⟩)
    · rcases hoff with hoff | hoff | hoff <;> rw [hoff] <;> exact nofun
    · simp [hk, Ctl.forks]
    · simp
  | @kvm c p hpc =>
    have hlock := (h.back c p hpc).2.2.1
    exact h.rehome (c := c) (by rw [hpc]; exact nofun) (lockOf_eq rfl) rfl rfl rfl rfl rfl
      (.inr ⟨⟨_, rfl⟩, hlock⟩)
  | @forkret c p hpc hk =>
    obtain ⟨hrun, hlock⟩ := h.lands hpc hk
    exact h.reseat hpc rfl (lockOf (.inr hlock) (.inl rfl)) (fun _ _ => rfl) rfl
      (mayFork_of_none rfl)
      (.free .run (by simp) hrun (by simp))
  | @yielded c p l hpc hk =>
    obtain ⟨hrun, hlock⟩ := h.lands hpc hk
    exact h.reseat hpc rfl (lockOf (.inr hlock) (.inl rfl)) (fun _ _ => rfl) rfl
      (mayFork_of_eq h (by rw [hk]; rfl))
      (.free l (by simp) hrun (by simp))
  | @slept c p hpc hk =>
    obtain ⟨hrun, hlock⟩ := h.lands hpc hk
    exact h.reseat hpc rfl (lockOf (.inr hlock) (.inl rfl)) (fun q hq => update_of_ne hq _ _)
      rfl (mayFork_of_none rfl)
      (.free .run (by simp) (by simpa using hrun) (by simp))
  | @waited c p hpc hk =>
    obtain ⟨hrun, hlock⟩ := h.lands hpc hk
    exact h.reseat hpc rfl (lockOf_eq rfl) (fun q hq => update_of_ne hq _ _)
      rfl (mayFork_of_none rfl)
      (.scan (by simp) (by simpa using hrun) hlock)
  | @yield c p l hr hlock =>
    exact h.reseat hr.pc rfl (lockOf (.inl hlock) (.inr rfl)) (fun q hq => update_of_ne hq _ _)
      rfl (mayFork_of_eq h hr.forks.symm)
      (.leave (.yielded l) (by simp) (.inl (by simp)) rfl)
  | @sleep c p a hr hlock =>
    exact h.reseat hr.pc rfl (lockOf (.inl hlock) (.inr rfl)) (fun q hq => update_of_ne hq _ _)
      rfl (mayFork_of_none rfl)
      (.leave .slept (by simp) (.inr (.inl (by simp))) rfl)
  | @exit c p hr hlock hinit =>
    obtain ⟨T, hT⟩ : ∃ T, T = adopt (wakeParent s.table p) p := ⟨_, rfl⟩
    have hstir : Stirred s.table T := hT ▸ (stirred_wakeParent s.table p).trans (stirred_adopt _ p)
    have h₁ : Placed { s with table := T } := h.stir rfl rfl rfl hstir
    refine h₁.reseat hr.pc rfl (lockOf (.inl hlock) (.inr rfl)) (fun q hq => ?_) rfl
      (mayFork_of_none rfl)
      (.leave .dead (by simp) (.inr (.inr ?_)) rfl)
    · rw [hT]
      exact exitTable_of_ne s.table hq
    · exact exitTable_state s.table p
  | @wait c p hr hlock =>
    exact h.reseat hr.pc rfl (lockOf (.inl hlock) (.inr rfl)) (fun _ _ => rfl) rfl
      (mayFork_of_none rfl)
      (.scan (by simp) (h.runs hr).1 rfl)
  | @reap c p q hpc hk hq =>
    obtain ⟨hrun, hlock⟩ := h.scans hpc hk
    have hzombie := (zombieOf_spec hq).2
    have hno := h.not_on_zombie hpc hk hzombie
    have hqp : q ≠ p := fun he => hno c (he ▸ (h.on c p hpc).1)
    have h₁ : Placed (s.put q (s.table q).reaped) := by
      refine h.edit hno rfl rfl (fun r hr => update_of_ne hr _ _) (fun _ _ => rfl) ?_ (.inl rfl)
        (.inr fun r b hr => ?_) (fun hoff => ?_) fun r hr => h.linked r q hr
      · simp [Entry.reaped]
      · exact nomatch hzombie.symm.trans (h.embryo r q b hr)
      · rcases hoff with hoff | hoff | hoff <;> simp [Entry.reaped] at hoff
    exact h₁.reseat hpc rfl (lockOf (.inr hlock) (.inl rfl)) (fun _ _ => rfl) rfl
      (mayFork_of_none rfl)
      (.free .run (by simp) (by simpa [update_of_ne hqp.symm] using hrun) (by simp))
  | @nokids c p hpc hk =>
    obtain ⟨hrun, hlock⟩ := h.scans hpc hk
    exact h.reseat hpc rfl (lockOf (.inr hlock) (.inl rfl)) (fun _ _ => rfl) rfl
      (mayFork_of_none rfl)
      (.free .run (by simp) hrun (by simp))
  | @doze c p hpc hk =>
    obtain ⟨hrun, hlock⟩ := h.scans hpc hk
    exact h.reseat hpc rfl (lockOf_eq rfl) (fun q hq => update_of_ne hq _ _)
      rfl (mayFork_of_none rfl)
      (.leave .waited (by simp) (.inr (.inl (by simp))) hlock)
  | wakeup a => exact h.stir rfl rfl rfl (stirred_wakeup1 _ _)
  | kill pid => exact h.stir rfl rfl rfl (stirred_kill _ _)
  | full => exact h
  | @alloc c p q hr hlock hq =>
    have hunused := firstUnused_spec hq
    have hno := h.not_on_embryo (.inr hunused)
    have hqp : q ≠ p := fun he => hno c (he ▸ (h.on c p hr.pc).1)
    have h₁ : Placed (s.put q { s.table q with state := .embryo, pid := pidOf s.nextpid }) := by
      refine h.edit hno rfl rfl (fun r hr => update_of_ne hr _ _) (fun _ _ => rfl) ?_ (.inl rfl)
        (.inl ?_) (fun hoff => ?_) fun r hr => h.linked r q hr
      · simp
      · simp
      · rcases hoff with hoff | hoff | hoff <;> simp at hoff
    have hrun : ((s.put q { s.table q with state := .embryo, pid := pidOf s.nextpid }).table p).state
        = .running := by simpa [update_of_ne hqp.symm] using (h.runs hr).1
    refine h₁.reseat hr.pc rfl (lockOf_eq rfl) (fun _ _ => rfl) rfl (fun r b hf => ?_)
      (.free (.forking q false) (by simp) hrun (by simp [hlock]))
    simp only [Ctl.forks, Loc.forks, Option.some.injEq, Prod.mk.injEq] at hf
    obtain ⟨rfl, rfl⟩ := hf
    exact ⟨by simp, (fun r b' hr => nomatch hunused.symm.trans (h.embryo r q b' hr)), nofun⟩
  | fail hr | crowded hr =>
    exact h.unfork hr nofun fun hoff => by rcases hoff with hoff | hoff | hoff <;> exact nomatch hoff
  | @link c p q hr =>
    obtain ⟨hembryo, hno, hqp⟩ := h.forking hr
    have h₁ : Placed ((s.put q { s.table q with parent := some p, regions := 0 }).goto q
        (.out .enter)) := by
      refine h.edit hno rfl rfl (fun r hr => update_of_ne hr _ _)
        (fun r hr => update_of_ne hr _ _) ?_ (.inr ?_) (.inl ?_) (fun _ => ⟨.enter, ?_⟩)
        fun _ _ => ?_
      all_goals simp [hembryo, Ctl.forks, Cont.forks]
    have hrun : (((s.put q { s.table q with parent := some p, regions := 0 }).goto q
        (.out .enter)).table p).state = .running := by
      simpa [update_of_ne hqp.symm] using (h.runs hr).1
    refine h₁.reseat hr.pc rfl (lockOf_eq rfl) (fun _ _ => rfl) rfl (fun r b hf => ?_)
      (.free (.forking q true) (by simp) hrun (h.runs hr).2)
    simp only [Ctl.forks, Loc.forks, Option.some.injEq, Prod.mk.injEq] at hf
    obtain ⟨rfl, rfl⟩ := hf
    refine ⟨by simp [hembryo], fun r b' hr' => ?_, by simp⟩
    by_cases hrq : r = q
    · rw [hrq, State.goto_ctl, update_self] at hr'
      exact nomatch hr'
    · rw [State.goto_ctl, update_of_ne hrq] at hr'
      exact h.forks r p q b' false hr' hr.forks
  | @fork c p q hr hlock hlt =>
    have h₁ := h.unfork (x := { s.table q with state := .runnable, regions := (s.table p).regions })
      hr nofun fun _ => rfl
    exact h₁.same rfl rfl rfl fun _ => rfl
  | shareMem => exact h.same rfl rfl rfl (field_update Entry.state (by rfl))

theorem placed_of_reach (h : Reach Start Step s) : Placed s :=
  h.keeps (fun _ => .of_start) fun _ _ _ => .step

/-! ## Running processes -/

/-- **Every process that runs is on one processor**, and every processor that has a process is on one
that runs. -/
structure OneCpu (s : State n) : Prop where
  running : ∀ p, (s.table p).state = .running → ∃! c, (s.cpu c).proc = some p
  proc : ∀ c p, (s.cpu c).proc = some p → (s.table p).state = .running
  stack : ∀ c p, (s.cpu c).pc = .on p → (s.table p).state ≠ .unused

/-- Processor `c` executes on the stack of a process or with its page table. -/
def Uses (s : State n) (c : Fin n) (p : Slot) : Prop :=
  (s.cpu c).pc = .on p ∨ (s.cpu c).cr3 = some p ∨ (s.cpu c).proc = some p

/-- What a processor uses is its process. -/
theorem Placed.proc_of_uses (h : Placed s) (hu : Uses s c p) : (s.cpu c).proc = some p := by
  rcases hu with hpc | hcr3 | hproc
  · exact (h.on c p hpc).1
  · cases hpc : (s.cpu c).pc with
    | idle => exact nomatch (h.idle c hpc).2.1.symm.trans hcr3
    | scan i => exact nomatch (h.scan c i hpc).2.1.symm.trans hcr3
    | on q => exact (h.on c q hpc).1.trans ((h.on c q hpc).2.1.symm.trans hcr3)
    | back q => exact (h.back c q hpc).1.trans ((h.back c q hpc).2.1.symm.trans hcr3)
  · exact hproc

theorem Placed.oneCpu (h : Placed s) (hlock : s.lock = none) : OneCpu s where
  running p hp := by
    obtain ⟨c, hc⟩ := h.running p hp
    exact ⟨c, (h.on c p hc).1, fun c' hc' => h.unique c' c p hc' (h.on c p hc).1⟩
  proc c p hp := (h.seat_of_unlocked (by rw [hlock]; exact nofun) hp).2.1
  stack c p hpc hun := h.not_on_embryo (.inr hun) c (h.on c p hpc).1

/-- **One processor for each running process.**  In every state reached in which the lock is free, and
whenever `wait` frees a child, no processor executes on the child's stack or with its page table. -/
theorem one_cpu_per_running (h : Reach Start Step s) : (s.lock = none → OneCpu s)
    ∧ ∀ p q pid s', Step s (.reap p q pid) s' → ∀ c, ¬ Uses s c q := by
  have hp := placed_of_reach h
  refine ⟨hp.oneCpu, fun p q pid s' hstep c hu => ?_⟩
  cases hstep with
  | reap hpc hk hq => exact hp.not_on_zombie hpc hk (zombieOf_spec hq).2 c (hp.proc_of_uses hu)

/-! ### The first process on two processors -/

/-- The first process has been made. -/
def booted (n : Nat) : State n where
  table := update (fun _ => .zero) initproc { Entry.zero with state := .runnable, pid := 1 }
  ctl := update (fun _ => .out .dead) initproc (.out .enter)
  cpu _ := ⟨.idle, none, none⟩
  lock := none
  nextpid := 2
  kids _ := []
  hit _ := false

theorem start_booted (n : Nat) : Start (booted n) :=
  ⟨rfl, rfl, fun _ => rfl, rfl, rfl, fun _ => rfl, fun _ => rfl⟩

/-- …and runs on a processor. -/
def running (c : Fin n) : State n where
  table := update (fun _ => .zero) initproc { Entry.zero with state := .running, pid := 1 }
  ctl := update (fun _ => .out .dead) initproc (.at .run)
  cpu := update (fun _ => ⟨.idle, none, none⟩) c ⟨.on initproc, some initproc, some initproc⟩
  lock := none
  nextpid := 2
  kids _ := []
  hit _ := false

theorem trace_running (c : Fin n) :
    Trace Step (booted n) [.sched, .sched, .land initproc] (running c) := by
  have h₁ := (Trace.nil (booted n)).snoc (Step.acquire (c := c) rfl rfl)
  have h₂ := h₁.snoc (Step.pick (c := c) (i := 0) (by decide) (by simp) (by rfl))
  have h₃ := h₂.snoc (Step.forkret (c := c) (p := initproc) (by simp; rfl) (by rfl))
  have hinit : (⟨0, by decide⟩ : Slot) = initproc := rfl
  simpa [running, booted, State.place, State.put, State.goto, State.acquire, State.release, hinit]
    using h₃

theorem reach_running (c : Fin n) : Reach Start Step (running c) :=
  (Reach.init (start_booted n)).trace (trace_running c)

/-- On two processors, the first process is on one of them. -/
theorem one_cpu_per_running_two : (∃! c, ((running (0 : Fin 2)).cpu c).proc = some initproc)
    ∧ ∀ p q pid s', Step (running (0 : Fin 2)) (.reap p q pid) s' → ∀ c, ¬ Uses (running (0 : Fin 2)) c q := by
  have h := one_cpu_per_running (reach_running (0 : Fin 2))
  exact ⟨(h.1 rfl).running initproc rfl, h.2⟩

end Xv6.Sched
