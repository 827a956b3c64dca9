import Xv6Ipc.Machinery.Runs
import Xv6Ipc.Process.State

/-!
# Sync/Sleep — `sleep`, `wakeup` and the scheduler, lock step by lock step

Every line of `sleep` and `wakeup` that takes or drops a lock is a step of its own:

    sleep    enter ─ptable─▸ drop ─lk─▸ doze ─▸ sched ─▸ off ┄wakeup┄▸ on ─▸ unlock ─▸ regain ─lk─▸
    wakeup   wake ─ptable─▸ scan 0 ─▸ … ─▸ scan n ─ptable─▸ woke ─▸

`ptable.lock` is taken before `lk` is dropped, and is passed on to the scheduler by whoever switches
out.  Between these steps processes take and drop locks as they like.
-/

namespace Xv6.Sleep

/-- Who holds a lock: a process, or the scheduler of some processor. -/
inductive Holder (n : Nat) where
  | proc (p : Fin n)
  | scheduler
  deriving DecidableEq

/-- What a process that was switched out goes on with. -/
inductive Resume (Lock Chan : Type) where
  | sleep (c : Chan) (l : Lock)
  | yield

/-- Where a process is: outside of `sleep`, `wakeup` and `yield` (`run`), or before the line of one of
them that the name says. -/
inductive Phase (Lock Chan : Type) where
  | run
  | enter (c : Chan) (l : Lock)
  | drop (c : Chan) (l : Lock)
  | doze (c : Chan) (l : Lock)
  | yieldLock
  | yieldSet
  | sched (r : Resume Lock Chan)
  | off (r : Resume Lock Chan)
  | on (r : Resume Lock Chan)
  | unlock (c : Chan) (l : Lock)
  | regain (c : Chan) (l : Lock)
  | wake (c : Chan)
  | scan (c : Chan) (i : Nat)
  | woke (c : Chan)

/-- The locks and the process table; `calls` counts the calls of `sleep` each process made. -/
structure State (n : Nat) (Lock Chan : Type) where
  owner : Lock → Option (Holder n)
  state : Fin n → ProcState
  chan : Fin n → Option Chan
  killed : Fin n → Bool
  phase : Fin n → Phase Lock Chan
  calls : Fin n → Nat

/-- What is seen of a step: `tau` is a step of a process inside one of the three functions, `idle` one
of a scheduler. -/
inductive Event (n : Nat) (Lock Chan : Type) where
  | acquire (p : Fin n) (l : Lock)
  | release (p : Fin n) (l : Lock)
  | sleepCall (p : Fin n) (c : Chan) (l : Lock)
  | sleepReturn (p : Fin n) (c : Chan) (l : Lock)
  | wakeupCall (p : Fin n) (c : Chan)
  | wakeupReturn (p : Fin n) (c : Chan)
  | tau (p : Fin n)
  | idle
  | kill (q : Fin n)

/-- The process that takes the step, or that the scheduler switches to. -/
@[grind] def Event.actor {n : Nat} {Lock Chan : Type} : Event n Lock Chan → Option (Fin n)
  | .acquire p _ => some p
  | .release p _ => some p
  | .sleepCall p _ _ => some p
  | .sleepReturn p _ _ => some p
  | .wakeupCall p _ => some p
  | .wakeupReturn p _ => some p
  | .tau p => some p
  | .idle => none
  | .kill _ => none

variable {n : Nat} {Lock Chan : Type}

/-- Write one place of a table. -/
def set {α β : Type} [DecidableEq α] (f : α → β) (a : α) (b : β) : α → β :=
  fun x => if x = a then b else f x

@[simp, grind =] theorem set_apply {α β : Type} [DecidableEq α] (f : α → β) (a x : α) (b : β) :
    set f a b x = if x = a then b else f x := rfl

variable [DecidableEq Lock] [DecidableEq Chan]

/-- The states after one turn of the loop of `wakeup1`. -/
def wakeSlot (s : State n Lock Chan) (c : Chan) (q : Fin n) : Fin n → ProcState :=
  fun r => if r = q ∧ s.state q = .sleeping ∧ s.chan q = some c then .runnable else s.state r

/-- The states after `kill` has found a process. -/
def killSlot (s : State n Lock Chan) (q : Fin n) : Fin n → ProcState :=
  fun r => if r = q ∧ s.state q = .sleeping then .runnable else s.state r

variable (ptable : Lock)

/-- **One step.**  A process whose next line would panic, or that waits for a lock, has none. -/
inductive Step : State n Lock Chan → Event n Lock Chan → State n Lock Chan → Prop
  | acquire {s p l} : s.phase p = .run → s.owner l = none →
    Step s (.acquire p l) { s with owner := set s.owner l (some (.proc p)) }
  | release {s p l} : s.phase p = .run → s.owner l = some (.proc p) →
    Step s (.release p l) { s with owner := set s.owner l none }
  | sleepCall {s p c l} : s.phase p = .run → s.owner l = some (.proc p) → l ≠ ptable →
    Step s (.sleepCall p c l)
      { s with phase := set s.phase p (.enter c l), calls := set s.calls p (s.calls p + 1) }
  | sleepCallTable {s p c} : s.phase p = .run → s.owner ptable = some (.proc p) →
    Step s (.sleepCall p c ptable)
      { s with phase := set s.phase p (.doze c ptable), calls := set s.calls p (s.calls p + 1) }
  | enter {s p c l} : s.phase p = .enter c l → s.owner ptable = none →
    Step s (.tau p)
      { s with owner := set s.owner ptable (some (.proc p)), phase := set s.phase p (.drop c l) }
  | drop {s p c l} : s.phase p = .drop c l → s.owner l = some (.proc p) →
    Step s (.tau p) { s with owner := set s.owner l none, phase := set s.phase p (.doze c l) }
  | doze {s p c l} : s.phase p = .doze c l →
    Step s (.tau p)
      { s with
        chan := set s.chan p (some c), state := set s.state p .sleeping
        phase := set s.phase p (.sched (.sleep c l)) }
  | yieldCall {s p} : s.phase p = .run → (∀ l, s.owner l ≠ some (.proc p)) →
    Step s (.tau p) { s with phase := set s.phase p .yieldLock }
  | yieldLock {s p} : s.phase p = .yieldLock → s.owner ptable = none →
    Step s (.tau p)
      { s with owner := set s.owner ptable (some (.proc p)), phase := set s.phase p .yieldSet }
  | yieldSet {s p} : s.phase p = .yieldSet →
    Step s (.tau p)
      { s with state := set s.state p .runnable, phase := set s.phase p (.sched .yield) }
  | sched {s p r} : s.phase p = .sched r → (∀ l, s.owner l = some (.proc p) → l = ptable) →
    Step s (.tau p)
      { s with owner := set s.owner ptable (some .scheduler), phase := set s.phase p (.off r) }
  | look {s} : s.owner ptable = none →
    Step s .idle { s with owner := set s.owner ptable (some .scheduler) }
  | dispatch {s p r} : s.owner ptable = some .scheduler → s.phase p = .off r →
    s.state p = .runnable →
    Step s (.tau p)
      { s with
        owner := set s.owner ptable (some (.proc p)), state := set s.state p .running
        phase := set s.phase p (.on r) }
  | rest {s} : s.owner ptable = some .scheduler →
    Step s .idle { s with owner := set s.owner ptable none }
  | tidy {s p c l} : s.phase p = .on (.sleep c l) → l ≠ ptable →
    Step s (.tau p) { s with chan := set s.chan p none, phase := set s.phase p (.unlock c l) }
  | tidyTable {s p c} : s.phase p = .on (.sleep c ptable) →
    Step s (.sleepReturn p c ptable)
      { s with chan := set s.chan p none, phase := set s.phase p .run }
  | unlock {s p c l} : s.phase p = .unlock c l →
    Step s (.tau p) { s with owner := set s.owner ptable none, phase := set s.phase p (.regain c l) }
  | regain {s p c l} : s.phase p = .regain c l → s.owner l = none →
    Step s (.sleepReturn p c l)
      { s with owner := set s.owner l (some (.proc p)), phase := set s.phase p .run }
  | yieldReturn {s p} : s.phase p = .on .yield →
    Step s (.tau p) { s with owner := set s.owner ptable none, phase := set s.phase p .run }
  | wakeupCall {s p c} : s.phase p = .run →
    Step s (.wakeupCall p c) { s with phase := set s.phase p (.wake c) }
  | wake {s p c} : s.phase p = .wake c → s.owner ptable = none →
    Step s (.tau p)
      { s with owner := set s.owner ptable (some (.proc p)), phase := set s.phase p (.scan c 0) }
  | scan {s p c} {q : Fin n} : s.phase p = .scan c q →
    Step s (.tau p) { s with state := wakeSlot s c q, phase := set s.phase p (.scan c (q + 1)) }
  | scanEnd {s p c} : s.phase p = .scan c n →
    Step s (.tau p) { s with owner := set s.owner ptable none, phase := set s.phase p (.woke c) }
  | wakeupReturn {s p c} : s.phase p = .woke c →
    Step s (.wakeupReturn p c) { s with phase := set s.phase p .run }
  | kill {s q} : s.owner ptable = none →
    Step s (.kill q) { s with state := killSlot s q, killed := set s.killed q true }

/-- At the start no lock is held, and every process runs or waits to be scheduled. -/
structure Start (s : State n Lock Chan) : Prop where
  owner : ∀ l, s.owner l = none
  phase : ∀ p, s.phase p = .run ∧ s.state p = .running ∨ s.phase p = .off .yield ∧ s.state p = .runnable

/-! ## What holds throughout -/

/-- The lines during which a process holds `ptable.lock` for `sleep`, `wakeup` or `yield`. -/
@[grind] def Phase.inTable : Phase Lock Chan → Bool
  | .run => false
  | .enter _ _ => false
  | .drop _ _ => true
  | .doze _ _ => true
  | .yieldLock => false
  | .yieldSet => true
  | .sched _ => true
  | .off _ => false
  | .on _ => true
  | .unlock _ _ => true
  | .regain _ _ => false
  | .wake _ => false
  | .scan _ _ => true
  | .woke _ => false

/-- The channel a process that was or is to be switched out waits for. -/
@[grind] def Resume.bed : Resume Lock Chan → Option Chan
  | .sleep c _ => some c
  | .yield => none

/-- The call of `sleep` a process that was switched out goes on with. -/
@[grind] def Resume.call : Resume Lock Chan → Option (Chan × Lock)
  | .sleep c l => some (c, l)
  | .yield => none

/-- The same, for a process anywhere. -/
@[grind] def Phase.bed : Phase Lock Chan → Option Chan
  | .run => none
  | .enter _ _ => none
  | .drop _ _ => none
  | .doze _ _ => none
  | .yieldLock => none
  | .yieldSet => none
  | .sched r => r.bed
  | .off r => r.bed
  | .on _ => none
  | .unlock _ _ => none
  | .regain _ _ => none
  | .wake _ => none
  | .scan _ _ => none
  | .woke _ => none

/-- **The lock protocol, for one process**: between two lines it holds the locks those lines are
between; if it sleeps, it is on its way out or switched out; if it is in `wakeup1`, the slots it is
past do not sleep on its channel. -/
structure Sound (s : State n Lock Chan) (p : Fin n) : Prop where
  table : (s.phase p).inTable = true → s.owner ptable = some (.proc p)
  lock : ∀ c l, s.phase p = .enter c l ∨ s.phase p = .drop c l →
    l ≠ ptable ∧ s.owner l = some (.proc p)
  asleep : s.state p = .sleeping → (s.phase p).bed ≠ none ∧ s.chan p = (s.phase p).bed
  scanned : ∀ c i, s.phase p = .scan c i →
    ∀ q : Fin n, q < i → s.state q = .sleeping → s.chan q ≠ some c

variable {ptable} {s s' : State n Lock Chan} {e : Event n Lock Chan} {p q : Fin n}

omit [DecidableEq Lock] [DecidableEq Chan] in
theorem Start.sound (h : Start s) (p : Fin n) : Sound ptable s p := by
  rcases h.phase p with ⟨hph, hst⟩ | ⟨hph, hst⟩ <;>
    exact ⟨by simp [hph, Phase.inTable], by simp [hph], by simp [hst], by simp [hph]⟩

/-! A step has at most one actor.  It leaves the others' places and locks alone, and nobody falls
asleep but in the line of `sleep` for it. -/

section Frame

variable (h : Step ptable s e s')
include h

theorem Step.other (hq : e.actor ≠ some q) :
    s'.phase q = s.phase q ∧ s'.chan q = s.chan q ∧ s'.calls q = s.calls q := by
  cases h <;> simp_all [Event.actor, eq_comm]

theorem Step.owner_of_other {l : Lock} (hs : ∀ p, Sound ptable s p) (hq : e.actor ≠ some q)
    (hl : s.owner l = some (.proc q)) : s'.owner l = some (.proc q) := by
  have htable := fun p => (hs p).table
  cases h <;> grind -ring -linarith -lia

theorem Step.sleeping (hs : ∀ p, Sound ptable s p) (hq : s'.state q = .sleeping) :
    (∃ c l, e.actor = some q ∧ s.phase q = .doze c l)
      ∨ s.state q = .sleeping ∧ s'.chan q = s.chan q := by
  have hasleep := (hs q).asleep
  cases h <;> grind -ring -linarith -lia [wakeSlot, killSlot]

end Frame

/-- How the actor comes to the next slot of `wakeup1`. -/
theorem Step.scan_inv {c : Chan} {i : Nat} (h : Step ptable s e s') (hp : e.actor = some p)
    (hi : s'.phase p = .scan c i) : i = 0 ∨ ∃ q : Fin n, i = q + 1 ∧ s.phase p = .scan c q
      ∧ s'.state = wakeSlot s c q ∧ s'.chan = s.chan := by
  cases h with
  | scan hph =>
    obtain rfl := Option.some.inj hp
    simp only [set_apply, if_pos, Phase.scan.injEq] at hi
    obtain ⟨rfl, rfl⟩ := hi
    exact .inr ⟨_, rfl, hph, rfl, rfl⟩
  | _ => simp_all [Event.actor]

/-- The actor's own lines keep the protocol. -/
theorem Sound.own (hs : ∀ p, Sound ptable s p) (h : Step ptable s e s') (hp : e.actor = some p) :
    Sound ptable s' p := by
  have htable := (hs p).table
  have hlock := (hs p).lock
  have hasleep := (hs p).asleep
  refine ⟨?_, ?_, ?_, fun c i hi q hq hst hc => ?_⟩
  · cases h <;> grind -ring -linarith -lia
  · cases h <;> grind -ring -linarith -lia
  · cases h <;> grind -ring -linarith -lia [wakeSlot]
  · obtain rfl | ⟨q', rfl, hph, hstate, hchan⟩ := h.scan_inv hp hi
    · omega
    rw [hstate, wakeSlot] at hst
    rw [hchan] at hc
    split at hst
    · simp at hst
    · rename_i hmiss
      rcases Nat.lt_succ_iff_lt_or_eq.mp hq with hlt | heq
      · exact (hs p).scanned c q' hph q hlt hst hc
      · obtain rfl := Fin.ext heq
        exact hmiss ⟨rfl, hst, hc⟩

/-- **Every step keeps the protocol.** -/
theorem Sound.step (hs : ∀ p, Sound ptable s p) (h : Step ptable s e s') (p : Fin n) :
    Sound ptable s' p := by
  by_cases hp : e.actor = some p
  · exact .own hs h hp
  obtain ⟨hphase, hchan, -⟩ := h.other hp
  refine ⟨fun hin => ?_, fun c l hl => ?_, fun hst => ?_, fun c i hi q hq hst hc => ?_⟩
  · rw [hphase] at hin
    exact h.owner_of_other hs hp ((hs p).table hin)
  · rw [hphase] at hl
    obtain ⟨hne, hown⟩ := (hs p).lock c l hl
    exact ⟨hne, h.owner_of_other hs hp hown⟩
  · rw [hphase, hchan]
    rcases h.sleeping hs hst with ⟨-, -, hact, -⟩ | ⟨hst, -⟩
    · exact absurd hact hp
    · exact (hs p).asleep hst
  · rw [hphase] at hi
    have hown := (hs p).table (by rw [hi]; rfl)
    rcases h.sleeping hs hst with ⟨c', l, hact, hdoze⟩ | ⟨hst, hsame⟩
    · have hown' := (hs q).table (by rw [hdoze]; rfl)
      obtain rfl : p = q := by simpa using hown.symm.trans hown'
      exact hp hact
    · rw [hsame] at hc
      exact (hs p).scanned c i hi q hq hst hc

/-- The protocol holds in every state reached. -/
theorem sound_of_reach (h : Runs.Reach Start (Step ptable) s) (p : Fin n) : Sound ptable s p :=
  h.keeps (P := fun s => ∀ p, Sound ptable s p) (fun _ hs => hs.sound)
    (fun _ _ _ hs hstep => Sound.step hs hstep) p

/-! ## A wakeup is not lost

A wakeup would be lost if it came before the process is marked as sleeping.  Whoever takes `lk` after
the call of `sleep` finds it past the line that drops `lk` (`Dropped`), hence holding `ptable.lock`
until it is marked; whoever then takes `ptable.lock` finds it marked (`Marked`). -/

/-- The lines of `sleep` that still hold `lk`. -/
@[grind] def Phase.early : Phase Lock Chan → Bool
  | .run => false
  | .enter _ _ => true
  | .drop _ _ => true
  | .doze _ _ => false
  | .yieldLock => false
  | .yieldSet => false
  | .sched _ => false
  | .off _ => false
  | .on _ => false
  | .unlock _ _ => false
  | .regain _ _ => false
  | .wake _ => false
  | .scan _ _ => false
  | .woke _ => false

/-- Call number `k` of `p` has dropped its lock. -/
structure Dropped (s : State n Lock Chan) (p : Fin n) (k : Nat) : Prop where
  calls : k ≤ s.calls p
  past : s.calls p = k → (s.phase p).early = false

/-- …and has marked the process as sleeping. -/
structure Marked (s : State n Lock Chan) (p : Fin n) (k : Nat) : Prop extends Dropped s p k where
  marked : s.calls p = k → ∀ c l, s.phase p ≠ .doze c l

variable {c : Chan} {l : Lock} {k : Nat} {es : List (Event n Lock Chan)}

/-- Only a new call gets back to the lines before the mark. -/
theorem Step.calls_cases (h : Step ptable s e s') (p : Fin n) :
    s'.calls p = s.calls p + 1 ∨ s'.calls p = s.calls p
      ∧ ((s.phase p).early = false → (s'.phase p).early = false
        ∧ ∀ c l, s'.phase p = .doze c l → s.phase p = .doze c l) := by
  by_cases hp : e.actor = some p
  · cases h <;> grind -ring -linarith -lia
  · obtain ⟨hphase, -, hcalls⟩ := h.other hp
    rw [hphase, hcalls]
    exact .inr ⟨rfl, fun hearly => ⟨hearly, fun _ _ => id⟩⟩

theorem Dropped.step (hd : Dropped s p k) (h : Step ptable s e s') : Dropped s' p k := by
  have hle := hd.calls
  rcases h.calls_cases p with hc | ⟨hc, hkeep⟩
  · exact ⟨by omega, fun hk => by omega⟩
  · exact ⟨by omega, fun hk => (hkeep (hd.past (by omega))).1⟩

theorem Marked.step (hm : Marked s p k) (h : Step ptable s e s') : Marked s' p k := by
  refine ⟨hm.toDropped.step h, fun hk c l hdoze => ?_⟩
  have hle := hm.calls
  rcases h.calls_cases p with hc | ⟨hc, hkeep⟩
  · omega
  · exact hm.marked (by omega) c l ((hkeep (hm.past (by omega))).2 c l hdoze)

/-- The sleeper is awake: call number `k` does not sleep on `c`, and will not any more. -/
structure Awake (s : State n Lock Chan) (p : Fin n) (k : Nat) (c : Chan) : Prop
    extends Marked s p k where
  awake : s.calls p = k → s.state p = .sleeping → s.chan p ≠ some c

theorem Awake.step (hs : ∀ p, Sound ptable s p) (ha : Awake s p k c) (h : Step ptable s e s') :
    Awake s' p k c := by
  refine ⟨ha.toMarked.step h, fun hk hst hc => ?_⟩
  have hle := ha.calls
  have hback := (ha.toMarked.step h).calls
  have hcalls : s.calls p = k := by
    rcases h.calls_cases p with hc | ⟨hc, -⟩ <;> omega
  rcases h.sleeping hs hst with ⟨c', l, -, hdoze⟩ | ⟨hst, hsame⟩
  · exact ha.marked hcalls c' l hdoze
  · exact ha.awake hcalls hst (hsame ▸ hc)

/-- **Inside `wakeup`**: as soon as it holds `ptable.lock` the call is marked, and when it has been
through the table the call does not sleep. -/
def Waking (s : State n Lock Chan) (q p : Fin n) (k : Nat) (c : Chan) : Prop :=
  s.phase q = .wake c ∧ Dropped s p k ∨ (∃ i, s.phase q = .scan c i) ∧ Marked s p k
    ∨ s.phase q = .woke c ∧ Awake s p k c

/-- The lines of `wakeup`. -/
theorem Step.wakeup_cases (h : Step ptable s e s') (q : Fin n) (he : ∀ c, e ≠ .wakeupReturn q c) :
    (s.phase q = .wake c → s'.phase q = .wake c ∨ s'.phase q = .scan c 0)
      ∧ (∀ i, s.phase q = .scan c i → (s'.phase q = .woke c ∧ i = n ∧ s'.state = s.state
        ∧ s'.chan = s.chan) ∨ ∃ j, s'.phase q = .scan c j)
      ∧ (s.phase q = .woke c → s'.phase q = .woke c) := by
  by_cases hq : e.actor = some q
  · cases h <;> grind -ring -linarith -lia
  · rw [(h.other hq).1]
    exact ⟨.inl, fun i hi => .inr ⟨i, hi⟩, id⟩

theorem Waking.step (hs : ∀ p, Sound ptable s p) (hpq : q ≠ p) (hw : Waking s q p k c)
    (h : Step ptable s e s') (he : ∀ c, e ≠ .wakeupReturn q c) : Waking s' q p k c := by
  obtain ⟨hwake, hscan, hwoke⟩ := h.wakeup_cases (c := c) q he
  rcases hw with ⟨hq, hd⟩ | ⟨⟨i, hq⟩, hm⟩ | ⟨hq, ha⟩
  · rcases hwake hq with hq' | hq'
    · exact .inl ⟨hq', hd.step h⟩
    · refine .inr (.inl ⟨⟨0, hq'⟩, hd.step h, fun _ c l hdoze => hpq ?_⟩)
      have hp := (Sound.step hs h p).table (by rw [hdoze]; rfl)
      have hq := (Sound.step hs h q).table (by rw [hq']; rfl)
      simpa using hq.symm.trans hp
  · rcases hscan i hq with ⟨hq', rfl, hstate, hchan⟩ | hq'
    · refine .inr (.inr ⟨hq', hm.step h, fun _ => ?_⟩)
      rw [hstate, hchan]
      exact (hs q).scanned c _ hq p p.isLt
    · exact .inr (.inl ⟨hq', hm.step h⟩)
  · exact .inr (.inr ⟨hwoke hq, ha.step hs h⟩)

/-- The call of `sleep` a process is in. -/
@[grind] def Phase.call : Phase Lock Chan → Option (Chan × Lock)
  | .run => none
  | .enter c l => some (c, l)
  | .drop c l => some (c, l)
  | .doze c l => some (c, l)
  | .yieldLock => none
  | .yieldSet => none
  | .sched r => r.call
  | .off r => r.call
  | .on r => r.call
  | .unlock c l => some (c, l)
  | .regain c l => some (c, l)
  | .wake _ => none
  | .scan _ _ => none
  | .woke _ => none

omit [DecidableEq Lock] [DecidableEq Chan] in
theorem Phase.call_of_bed {f : Phase Lock Chan} (h : f.bed = some c) : ∃ l, f.call = some (c, l) := by
  cases f with
  | sched r | off r =>
    cases r <;> simp_all [Phase.bed, Phase.call, Resume.bed, Resume.call]
  | _ => simp [Phase.bed] at h

omit [DecidableEq Lock] [DecidableEq Chan] in
theorem Phase.early_of_call {f : Phase Lock Chan} (h : f.call = none) : f.early = false := by
  cases f <;> simp_all [Phase.call, Phase.early]

/-- The channel of the call of `wakeup` a process is in. -/
@[grind] def Phase.waking : Phase Lock Chan → Option Chan
  | .run => none
  | .enter _ _ => none
  | .drop _ _ => none
  | .doze _ _ => none
  | .yieldLock => none
  | .yieldSet => none
  | .sched _ => none
  | .off _ => none
  | .on _ => none
  | .unlock _ _ => none
  | .regain _ _ => none
  | .wake c => some c
  | .scan c _ => some c
  | .woke c => some c

/-- A process stays in its call of `sleep` until it returns. -/
theorem Step.call_of_not_return (h : Step ptable s e s') (hp : (s.phase p).call = some (c, l))
    (he : ∀ c l, e ≠ .sleepReturn p c l) : (s'.phase p).call = some (c, l) := by
  by_cases hact : e.actor = some p
  · cases h <;> grind -ring -linarith -lia
  · rwa [(h.other hact).1]

/-- Its own steps inside of the three functions lead from line to line of one call, which is late when
it was late; a lock other than `ptable.lock` is only dropped by becoming late. -/
theorem Step.tau_inv (h : Step ptable s (.tau p) s') : (s'.phase p).call = (s.phase p).call
    ∧ (s'.phase p).waking = (s.phase p).waking
    ∧ ((s.phase p).early = false → (s'.phase p).early = false)
    ∧ ∀ l, l ≠ ptable → (s.owner l = some (.proc p) → (s.phase p).early = (s'.phase p).early
        → s'.owner l = some (.proc p))
      ∧ (s'.owner l = some (.proc p) → s.owner l = some (.proc p)) := by
  cases h <;> grind -ring -linarith -lia

/-- How a process comes to a lock. -/
theorem Step.owner_back (h : Step ptable s e s') (hl : l ≠ ptable)
    (hp : s'.owner l = some (.proc p)) :
    s.owner l = some (.proc p) ∨ e = .acquire p l ∨ ∃ c, e = .sleepReturn p c l := by
  cases h with
  | @regain q c l' =>
    by_cases heq : l = l'
    · obtain rfl : q = p := by simpa [heq] using hp
      exact .inr (.inr ⟨c, by rw [heq]⟩)
    · exact .inl (by simpa [heq] using hp)
  | _ => grind -ring -linarith -lia

/-- How a process falls asleep. -/
theorem Step.doze_back (h : Step ptable s e s') (hp : s'.phase p = .doze c l) :
    s.phase p = .doze c l ∨ s.phase p = .drop c l ∨ l = ptable := by
  by_cases ha : e.actor = some p
  · cases h <;> grind -ring -linarith -lia
  · exact .inl ((h.other ha).1 ▸ hp)

theorem Step.asleep_back (h : Step ptable s e s') (hs : ∀ p, Sound ptable s p)
    (hst : s'.state p = .sleeping) (hbed : (s'.phase p).bed = some c) :
    (∃ l, s.phase p = .doze c l) ∨ s.state p = .sleeping ∧ (s.phase p).bed = some c := by
  by_cases ha : e.actor = some p
  · cases h <;> grind -ring -linarith -lia [wakeSlot]
  · rcases h.sleeping hs hst with ⟨_, _, ha', -⟩ | ⟨hst, -⟩
    · exact absurd ha' ha
    · exact .inr ⟨hst, (h.other ha).1 ▸ hbed⟩

/-- `wakeup` is through the table when it drops the lock. -/
theorem Step.woke_back (h : Step ptable s (.tau p) s') (hp : s'.phase p = .woke c) :
    s.phase p = .scan c n := by
  cases h <;> grind -ring -linarith -lia

/-- Asleep, or past the point of no return. -/
def Asleep (s : State n Lock Chan) (p : Fin n) (c : Chan) : Prop :=
  (∃ l, s.phase p = .doze c l) ∨ s.state p = .sleeping ∧ (s.phase p).bed = some c

/-- A process falls asleep from a call that has its lock until then. -/
theorem Asleep.back (hs : ∀ p, Sound ptable s p) (h : Step ptable s e s') (hp : Asleep s' p c) :
    Asleep s p c ∨ (∃ l, s.phase p = .drop c l) ∨ s'.phase p = .doze c ptable := by
  rcases hp with ⟨l, hdoze⟩ | ⟨hst, hbed⟩
  · rcases h.doze_back hdoze with hdoze | hdrop | rfl
    · exact .inl (.inl ⟨l, hdoze⟩)
    · exact .inr (.inl ⟨l, hdrop⟩)
    · exact .inr (.inr hdoze)
  · rcases h.asleep_back hs hst hbed with hdoze | hsleep
    · exact .inl (.inl hdoze)
    · exact .inl (.inr hsleep)

omit [DecidableEq Lock] [DecidableEq Chan] in
/-- Who is asleep is in a call of `sleep`. -/
theorem Asleep.call (hp : Asleep s p c) : ∃ l, (s.phase p).call = some (c, l) := by
  rcases hp with ⟨l, hdoze⟩ | ⟨-, hbed⟩
  · exact ⟨l, by rw [hdoze]; rfl⟩
  · exact Phase.call_of_bed hbed

omit [DecidableEq Lock] in
/-- `wakeup1` does not pass a sleeper by. -/
theorem Asleep.scan_ne (hs : ∀ p, Sound ptable s p) {r : Fin n} (hq : s.phase q = .scan c r)
    (hphase : p ≠ q → s'.phase p = s.phase p) (hstate : s'.state = wakeSlot s c r)
    (hp : Asleep s p c) (hp' : Asleep s' p c) : r ≠ p := by
  rintro rfl
  rcases hp with ⟨l, hdoze⟩ | ⟨hst, hbed⟩
  · have hp := (hs r).table (by rw [hdoze]; rfl)
    have hq' := (hs q).table (by rw [hq]; rfl)
    obtain rfl : q = r := by simpa using hq'.symm.trans hp
    simp [hdoze] at hq
  · have hne : r ≠ q := by
      rintro rfl
      simp [hq, Phase.bed] at hbed
    have hchan : s.chan r = some c := ((hs r).asleep hst).2.trans hbed
    rcases hp' with ⟨l, hdoze⟩ | ⟨hst', -⟩
    · rw [hphase hne] at hdoze
      simp [hdoze, Phase.bed] at hbed
    · simp [hstate, wakeSlot, hst, hchan] at hst'

/-- The `wakeup` of `q` has not come by slot `p` yet. -/
structure Ahead (s : State n Lock Chan) (q p : Fin n) (c : Chan) : Prop where
  ahead : ∀ i, s.phase q = .scan c i → i ≤ p
  calling : s.phase q ≠ .woke c

omit [DecidableEq Lock] [DecidableEq Chan] in
theorem Ahead.of_run (h : s.phase q = .run) : Ahead s q p c := ⟨by simp [h], by simp [h]⟩

/-- …and does not while it is asleep. -/
theorem Ahead.tau (ha : Ahead s q p c) (hs : ∀ p, Sound ptable s p) (h : Step ptable s (.tau q) s')
    (hp : Asleep s p c) (hp' : Asleep s' p c) : Ahead s' q p c := by
  refine ⟨fun i hi => ?_, fun hwoke => ?_⟩
  · obtain rfl | ⟨r, rfl, hscan, hstate, -⟩ := h.scan_inv rfl hi
    · exact Nat.zero_le _
    · have hle := ha.ahead r hscan
      have hne : r ≠ p := hp.scan_ne hs hscan
        (fun hpq => (h.other (by simpa [Event.actor, eq_comm] using hpq)).1) hstate hp'
      exact Nat.lt_of_le_of_ne hle fun heq => hne (Fin.ext heq)
  · have hend := ha.ahead n (h.woke_back hwoke)
    exact absurd p.isLt (by omega)

/-- Nobody is brought back to life. -/
theorem Step.killed_back (h : Step ptable s e s') (hp : s'.killed p = false) : s.killed p = false := by
  cases h <;> grind -ring -linarith -lia

/-- It returns with the lock it was called with. -/
theorem Step.sleepReturn_inv {c' : Chan} {l' : Lock} (hs : ∀ p, Sound ptable s p)
    (h : Step ptable s (.sleepReturn p c' l') s') (hp : (s.phase p).call = some (c, l)) :
    c' = c ∧ l' = l ∧ s'.owner l = some (.proc p) := by
  have htable := (hs p).table
  cases h <;> grind -ring -linarith -lia

/-- A call of `sleep` starts with its lock held, so it has not dropped it. -/
theorem Step.sleepCall_inv (h : Step ptable s (.sleepCall p c l) s') :
    (s'.phase p).call = some (c, l) ∧ s'.calls p = s.calls p + 1 := by
  cases h <;> grind -ring -linarith -lia

/-- A call with another lock than `ptable.lock` starts at its first line… -/
theorem Step.sleepCall_of_ne (h : Step ptable s (.sleepCall p c l) s') (hl : l ≠ ptable) :
    s.phase p = .run ∧ s.owner l = some (.proc p) ∧ s'.phase p = .enter c l
      ∧ s'.owner = s.owner := by
  cases h with
  | sleepCall hph hown _ => exact ⟨hph, hown, if_pos rfl, rfl⟩
  | sleepCallTable => exact absurd rfl hl

/-- …and returns with it. -/
theorem Step.sleepReturn_of_ne (h : Step ptable s (.sleepReturn p c l) s') (hl : l ≠ ptable) :
    s'.phase p = .run ∧ s'.owner l = some (.proc p) := by
  cases h with
  | regain => exact ⟨if_pos rfl, if_pos rfl⟩
  | tidyTable => exact absurd rfl hl

/-- **Part one of a call**: until `lk` is dropped it is held, so that who takes it finds it
dropped. -/
def Calling (s : State n Lock Chan) (p : Fin n) (k : Nat) (l : Lock) : Prop :=
  k ≤ s.calls p ∧ (s.calls p = k → (s.phase p).early = true → ∃ c, (s.phase p).call = some (c, l))

theorem Step.phase_of_return {c' : Chan} {l' : Lock} (h : Step ptable s (.sleepReturn p c' l') s') :
    s'.phase p = .run := by
  cases h <;> simp

theorem Calling.step (hc : Calling s p k l) (h : Step ptable s e s') : Calling s' p k l := by
  obtain ⟨hle, hearly⟩ := hc
  rcases h.calls_cases p with hcalls | ⟨hcalls, hkeep⟩
  · exact ⟨by omega, fun hk => by omega⟩
  · refine ⟨by omega, fun hk he => ?_⟩
    have hbefore : (s.phase p).early = true := by
      by_contra hno
      rw [(hkeep (by simpa using hno)).1] at he
      simp at he
    obtain ⟨c, hcall⟩ := hearly (by omega) hbefore
    refine ⟨c, h.call_of_not_return hcall fun c' l' hret => ?_⟩
    subst hret
    rw [h.phase_of_return] at he
    simp [Phase.early] at he

omit [DecidableEq Lock] [DecidableEq Chan] in
/-- Who takes the lock of a call finds it dropped. -/
theorem Calling.dropped (hc : Calling s p k l) (hs : ∀ p, Sound ptable s p) (hpq : q ≠ p)
    (hq : s.owner l = some (.proc q)) : Dropped s p k := by
  refine ⟨hc.1, fun hk => ?_⟩
  by_contra hearly
  obtain ⟨c, hcall⟩ := hc.2 hk (by simpa using hearly)
  have hown : s.owner l = some (.proc p) := by
    have hlock := (hs p).lock c l
    cases hph : s.phase p <;> grind -ring -linarith -lia
  exact hpq (by simpa using hq.symm.trans hown)

/-! ## The two promises of `sleep` -/

/-- A whole call of `wakeup`, up to its return. -/
theorem Waking.trace (hr : Runs.Reach Start (Step ptable) s) (hpq : q ≠ p) (hw : Waking s q p k c)
    (h : Runs.Trace (Step ptable) s es s') (hno : ∀ c', .wakeupReturn q c' ∉ es) :
    Waking s' q p k c := by
  have hboth : Runs.Reach Start (Step ptable) s' ∧ Waking s' q p k c :=
    h.keeps (P := fun s => Runs.Reach Start (Step ptable) s ∧ Waking s q p k c) ⟨hr, hw⟩
      fun s e s' he ⟨hr, hw⟩ hstep =>
        ⟨hr.step hstep, hw.step (sound_of_reach hr) hpq hstep fun c' hc => hno c' (hc ▸ he)⟩
  exact hboth.2

theorem Waking.awake (hw : Waking s q p k c) (h : Step ptable s (.wakeupReturn q c) s') :
    Awake s p k c := by
  have hq : s.phase q = .woke c := by
    cases h
    assumption
  rcases hw with ⟨hq', -⟩ | ⟨⟨i, hq'⟩, -⟩ | ⟨-, ha⟩
  · simp [hq] at hq'
  · simp [hq] at hq'
  · exact ha

variable (ptable) in
/-- `q` takes lock `l`, in whatever way. -/
structure Acquires (q : Fin n) (l : Lock) (s s' : State n Lock Chan) : Prop where
  step : ∃ e, Step ptable s e s'
  before : s.owner l ≠ some (.proc q)
  after : s'.owner l = some (.proc q)

variable (ptable) in
/-- `q` calls `wakeup(c)` in `s` and has come back from it in `s'`. -/
def WakesUp (q : Fin n) (c : Chan) (s s' : State n Lock Chan) : Prop :=
  ∃ t es u, Step ptable s (.wakeupCall q c) t ∧ Runs.Trace (Step ptable) t es u
    ∧ (∀ c', .wakeupReturn q c' ∉ es) ∧ Step ptable u (.wakeupReturn q c) s'

/-- **`sleep` loses no wakeup, and comes back with its lock.**  If another process takes `lk` after the
call and then has called `wakeup`, this call does not sleep any more; and when the call returns, `lk`
is held. -/
theorem sleep_loses_no_wakeup {s₀ s₁ : State n Lock Chan}
    (hreach : Runs.Reach Start (Step ptable) s₀) (hcall : Step ptable s₀ (.sleepCall p c l) s₁) :
    (∀ q ≠ p, ∀ es s₂ s₃ es' s₄ s₅, Runs.Trace (Step ptable) s₁ es s₂ → Acquires ptable q l s₂ s₃ →
        Runs.Trace (Step ptable) s₃ es' s₄ → WakesUp ptable q c s₄ s₅ →
        ¬ (s₅.calls p = s₁.calls p ∧ s₅.state p = .sleeping ∧ s₅.chan p = some c))
      ∧ ∀ es s₂ s₃ c' l', Runs.Trace (Step ptable) s₁ es s₂ →
        (∀ c l, .sleepReturn p c l ∉ es) → Step ptable s₂ (.sleepReturn p c' l') s₃ →
        c' = c ∧ l' = l ∧ s₃.owner l = some (.proc p) := by
  have hr₁ := hreach.step hcall
  obtain ⟨hin, -⟩ := hcall.sleepCall_inv
  constructor
  · rintro q hpq es s₂ s₃ es' s₄ s₅ htr ⟨⟨e, hacq⟩, -, hown⟩ htr' ⟨t, es'', u, hwake, htr'', hno, hret⟩
    have hr₃ := (hr₁.trace htr).step hacq
    have hr₄ := hr₃.trace htr'
    have hcalling : Calling s₃ p (s₁.calls p) l :=
      (htr.snoc hacq).keeps (P := fun s => Calling s p (s₁.calls p) l)
        ⟨le_rfl, fun _ _ => ⟨c, hin⟩⟩ fun _ _ _ _ hc hstep => hc.step hstep
    have hdropped : Dropped t p (s₁.calls p) :=
      (htr'.snoc hwake).keeps (P := fun s => Dropped s p (s₁.calls p))
        (hcalling.dropped (sound_of_reach hr₃) hpq hown) fun _ _ _ _ hd hstep => hd.step hstep
    have hphase : t.phase q = .wake c := by
      cases hwake
      simp
    have hwaking : Waking u q p (s₁.calls p) c :=
      Waking.trace (hr₄.step hwake) hpq (.inl ⟨hphase, hdropped⟩) htr'' hno
    have hsound := sound_of_reach ((hr₄.step hwake).trace htr'')
    exact fun ⟨hk, hst, hc⟩ => ((hwaking.awake hret).step hsound hret).awake hk hst hc
  · intro es s₂ s₃ c' l' htr hno hret
    have hcall : (s₂.phase p).call = some (c, l) :=
      htr.keeps (P := fun s => (s.phase p).call = some (c, l)) hin fun s e s' he hp hstep =>
        hstep.call_of_not_return hp fun c l hc => hno c l (hc ▸ he)
    exact hret.sleepReturn_inv (sound_of_reach (hr₁.trace htr)) hcall

/-- Two processes about to use one lock (`false`) beside `ptable.lock` (`true`). -/
def twoProcs : State 2 Bool Unit where
  owner _ := none
  state _ := .running
  chan _ := none
  killed _ := false
  phase _ := .run
  calls _ := 0

/-- A process holds a lock. -/
def lock (s : State 2 Bool Unit) (p : Fin 2) (l : Bool) : State 2 Bool Unit :=
  { s with owner := set s.owner l (some (.proc p)) }

/-- One process takes the lock and goes to sleep, the other takes the lock and wakes it. -/
theorem sleep_loses_no_wakeup_two : ∃ s₁ s₂ s₃ s₄ : State 2 Bool Unit,
    s₁.calls 0 = 1 ∧ s₂.state 0 = .sleeping ∧ Acquires true 1 false s₂ s₃ ∧ WakesUp true 1 () s₃ s₄
      ∧ ¬ (s₄.calls 0 = s₁.calls 0 ∧ s₄.state 0 = .sleeping ∧ s₄.chan 0 = some ()) := by
  have hlocked : Runs.Reach Start (Step true) (lock twoProcs 0 false) :=
    .step (.init ⟨fun _ => rfl, fun _ => .inl ⟨rfl, rfl⟩⟩) (Step.acquire rfl rfl)
  obtain ⟨s₁, hcall, hcalls, s₂, es, hsleep, hst, hown, hrun⟩ :
      ∃ s₁, Step true (lock twoProcs 0 false) (.sleepCall 0 () false) s₁ ∧ s₁.calls 0 = 1
        ∧ ∃ s₂ es, Runs.Trace (Step true) s₁ es s₂ ∧ s₂.state 0 = .sleeping
          ∧ (∀ l, s₂.owner l = none) ∧ s₂.phase 1 = .run :=
    ⟨_, Step.sleepCall (p := 0) (c := ()) (l := false) rfl rfl (by decide), rfl, _, _,
      .cons (Step.enter (p := 0) rfl rfl) (.cons (Step.drop (p := 0) rfl rfl)
        (.cons (Step.doze (p := 0) rfl) (.cons (Step.sched (p := 0) rfl (by decide))
          (.single (Step.rest rfl))))), rfl, by decide, rfl⟩
  obtain ⟨s₃, hacq, hfree, hrun⟩ : ∃ s₃, Acquires true 1 false s₂ s₃ ∧ s₃.owner true = none
      ∧ s₃.phase 1 = .run :=
    ⟨_, ⟨⟨_, Step.acquire hrun (hown false)⟩, by simp [hown], by simp⟩, hown true, hrun⟩
  obtain ⟨s₄, hwake⟩ : ∃ s₄, WakesUp true 1 () s₃ s₄ :=
    ⟨_, _, _, _, Step.wakeupCall hrun, .cons (Step.wake (p := 1) (by simp; rfl) hfree)
      (.cons (Step.scan (p := 1) (q := 0) (by simp; rfl))
        (.cons (Step.scan (p := 1) (q := 1) (by simp; rfl))
          (.single (Step.scanEnd (p := 1) (by simp; rfl))))), by simp, Step.wakeupReturn (by simp)⟩
  exact ⟨s₁, s₂, s₃, s₄, hcalls, hst, hacq, hwake, (sleep_loses_no_wakeup hlocked hcall).1 1
    (by decide) es s₂ s₃ [] s₃ s₄ hsleep hacq (.nil _) hwake⟩

end Xv6.Sleep
