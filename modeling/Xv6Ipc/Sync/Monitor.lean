import Xv6Ipc.Sync.Sleep

/-!
# Sync/Monitor — code that runs under one lock and sleeps in it

A monitor is data, a lock for it, and code of which each line is one of five kinds:

    own ─▸ …          something of its own, under the lock or not
    acquire, release  of the monitor's lock
    sleep c           which gives the lock up and comes back with it
    wakeup c

Where a process is in its code and where it is in `sleep` and `wakeup` of `Sync/Sleep` go together
(`Tied`), so that one process at a time is under the lock.  The rule for waiting (`Waiting.step`) needs
to know of the code: what one waits for is not so when a line comes to `sleep`, and the line that makes
it so owes a `wakeup` before it drops the lock.
-/

namespace Xv6.Monitor

/-- What the line at a control point is; all but the first go on at `k`. -/
inductive Line (Chan Ctl : Type) where
  | own
  | acquire (k : Ctl)
  | release (k : Ctl)
  | sleep (c : Chan) (k : Ctl)
  | wakeup (c : Chan) (k : Ctl)

/-- **The code of a monitor**: its lock beside `ptable.lock`, the line at each control point, which of
them are under the lock, and what the lines of its own do to the data. -/
structure Code (Lock Chan Ctl σ : Type) where
  ptable : Lock
  lock : Lock
  lock_ne : lock ≠ ptable
  line : Ctl → Line Chan Ctl
  inside : Ctl → Bool
  turn : σ → Ctl → σ → Ctl → Prop
  acquires : ∀ {k k'}, line k = .acquire k' → inside k = false
  releases : ∀ {k k'}, line k = .release k' → inside k = true ∧ inside k' = false
  sleeps : ∀ {k k' c}, line k = .sleep c k' → inside k = true
  wakes : ∀ {k k' c}, line k = .wakeup c k' → inside k = true
  turns : ∀ {d k d' k'}, line k = .own → turn d k d' k' → inside k' = inside k

/-- The data and the processes that use it. -/
structure State (n : Nat) (Lock Chan Ctl σ : Type) where
  sys : Sleep.State n Lock Chan
  data : σ
  ctl : Fin n → Ctl

variable {n : Nat} {Lock Chan Ctl σ : Type}

/-- Move a process to another line. -/
def State.goto (s : State n Lock Chan Ctl σ) (p : Fin n) (k : Ctl) : State n Lock Chan Ctl σ :=
  { s with ctl := Sleep.set s.ctl p k }

@[simp] theorem State.goto_ctl (s : State n Lock Chan Ctl σ) (p q : Fin n) (k : Ctl) :
    (s.goto p k).ctl q = if q = p then k else s.ctl q := rfl

/-- Steps inside `sleep`, `wakeup` and `yield`, of schedulers, and of `kill`. -/
def Silent : Sleep.Event n Lock Chan → Prop
  | .tau _ => True
  | .idle => True
  | .kill _ => True
  | _ => False

/-- What is seen of a step: one of `Sync/Sleep`, or one that a process takes by itself. -/
inductive Label (n : Nat) (Lock Chan : Type) where
  | sync (e : Sleep.Event n Lock Chan)
  | own (p : Fin n)

def Label.actor : Label n Lock Chan → Option (Fin n)
  | .sync e => e.actor
  | .own p => some p

variable [DecidableEq Lock] [DecidableEq Chan] (m : Code Lock Chan Ctl σ)

/-- **One step.**  A process whose line has no turn (it has panicked) stays where it is. -/
inductive Step : State n Lock Chan Ctl σ → Label n Lock Chan → State n Lock Chan Ctl σ → Prop
  | inside {s e sys} : Silent e → Sleep.Step m.ptable s.sys e sys →
    Step s (.sync e) { s with sys := sys }
  | own {s p d k} : m.line (s.ctl p) = .own → s.sys.phase p = .run → m.turn s.data (s.ctl p) d k →
    Step s (.own p) { s.goto p k with data := d }
  | acquire {s p k sys} : m.line (s.ctl p) = .acquire k →
    Sleep.Step m.ptable s.sys (.acquire p m.lock) sys →
    Step s (.sync (.acquire p m.lock)) { s.goto p k with sys := sys }
  | release {s p k sys} : m.line (s.ctl p) = .release k →
    Sleep.Step m.ptable s.sys (.release p m.lock) sys →
    Step s (.sync (.release p m.lock)) { s.goto p k with sys := sys }
  | sleepCall {s p c k sys} : m.line (s.ctl p) = .sleep c k →
    Sleep.Step m.ptable s.sys (.sleepCall p c m.lock) sys →
    Step s (.sync (.sleepCall p c m.lock)) { s with sys := sys }
  | sleepReturn {s p c k sys} : m.line (s.ctl p) = .sleep c k →
    Sleep.Step m.ptable s.sys (.sleepReturn p c m.lock) sys →
    Step s (.sync (.sleepReturn p c m.lock)) { s.goto p k with sys := sys }
  | wakeupCall {s p c k sys} : m.line (s.ctl p) = .wakeup c k →
    Sleep.Step m.ptable s.sys (.wakeupCall p c) sys →
    Step s (.sync (.wakeupCall p c)) { s with sys := sys }
  | wakeupReturn {s p c k sys} : m.line (s.ctl p) = .wakeup c k →
    Sleep.Step m.ptable s.sys (.wakeupReturn p c) sys →
    Step s (.sync (.wakeupReturn p c)) { s.goto p k with sys := sys }

/-- At the start nobody is under the lock. -/
structure Start (s : State n Lock Chan Ctl σ) : Prop where
  sys : Sleep.Start s.sys
  outside : ∀ p, m.inside (s.ctl p) = false

variable {m} {s s' : State n Lock Chan Ctl σ} {a : Label n Lock Chan} {p q : Fin n} {c : Chan}

/-! ## What a step does -/

/-- A step is one of `Sync/Sleep`, which leaves the data alone, or leaves locks and processes alone. -/
theorem Step.sys_cases (h : Step m s a s') :
    (∃ e, a = .sync e ∧ Sleep.Step m.ptable s.sys e s'.sys ∧ s'.data = s.data)
      ∨ ∃ p, a = .own p ∧ s'.sys = s.sys := by
  cases h with
  | own => exact .inr ⟨_, rfl, rfl⟩
  | inside _ h | acquire _ h | release _ h | sleepCall _ h | sleepReturn _ h | wakeupCall _ h
  | wakeupReturn _ h => exact .inl ⟨_, rfl, h, rfl⟩

/-- The line a process is at after a call about locks. -/
def Line.next : Line Chan Ctl → Option Ctl
  | .own => none
  | .acquire k => some k
  | .release k => some k
  | .sleep _ k => some k
  | .wakeup _ k => some k

/-- **For the data a step is nothing, a move past a line about locks, or a turn.** -/
theorem Step.data_cases (h : Step m s a s') :
    (s'.data = s.data ∧ s'.ctl = s.ctl)
      ∨ (∃ p k, (m.line (s.ctl p)).next = some k ∧ s'.data = s.data
        ∧ s'.ctl = Sleep.set s.ctl p k)
      ∨ ∃ p k, a = .own p ∧ m.line (s.ctl p) = .own ∧ s.sys.phase p = .run
        ∧ m.turn s.data (s.ctl p) s'.data k ∧ s'.ctl = Sleep.set s.ctl p k := by
  cases h with
  | own hl hph ht => exact .inr (.inr ⟨_, _, rfl, hl, hph, ht, rfl⟩)
  | inside | sleepCall | wakeupCall => exact .inl ⟨rfl, rfl⟩
  | acquire hl | release hl | sleepReturn hl | wakeupReturn hl => exact .inr (.inl ⟨_, _, by rw [hl]; rfl, rfl, rfl⟩)

/-- The lock protocol of `Sync/Sleep` holds on. -/
theorem Step.sound (h : Step m s a s') (hs : ∀ p, Sleep.Sound m.ptable s.sys p) (p : Fin n) :
    Sleep.Sound m.ptable s'.sys p := by
  rcases h.sys_cases with ⟨e, -, hstep, -⟩ | ⟨-, -, hsys⟩
  · exact .step hs hstep p
  · rw [hsys]
    exact hs p

/-- Who does not act stays where it is… -/
theorem Step.ctl_of_other (h : Step m s a s') (hq : a.actor ≠ some q) : s'.ctl q = s.ctl q := by
  have hne : ∀ p, a.actor = some p → q ≠ p := fun p hp hqp => hq (hqp ▸ hp)
  cases h with
  | inside | wakeupCall | sleepCall => rfl
  | own | acquire | release | sleepReturn | wakeupReturn => exact if_neg (hne _ rfl)

/-- …and keeps its place in `sleep` and `wakeup`, and its lock. -/
theorem Step.sys_of_other (h : Step m s a s') (hs : ∀ p, Sleep.Sound m.ptable s.sys p)
    (hq : a.actor ≠ some q) : s'.sys.phase q = s.sys.phase q
      ∧ (s.sys.owner m.lock = some (.proc q) → s'.sys.owner m.lock = some (.proc q)) := by
  rcases h.sys_cases with ⟨e, rfl, hstep, -⟩ | ⟨-, -, hsys⟩
  · exact ⟨(hstep.other hq).1, hstep.owner_of_other hs hq⟩
  · rw [hsys]
    exact ⟨rfl, id⟩

/-- How a process comes to the lock. -/
theorem Step.owner_back (h : Step m s a s') (hp : s'.sys.owner m.lock = some (.proc p)) :
    s.sys.owner m.lock = some (.proc p) ∨ (m.line (s.ctl p)).next = some (s'.ctl p) := by
  cases h with
  | @inside e sys hsil hstep =>
    rcases hstep.owner_back m.lock_ne hp with hp | rfl | ⟨c, rfl⟩
    · exact .inl hp
    · exact hsil.elim
    · exact hsil.elim
  | own => exact .inl hp
  | acquire hline hstep =>
    rcases hstep.owner_back m.lock_ne hp with hp | he | ⟨c, he⟩
    · exact .inl hp
    · obtain ⟨rfl, -⟩ := Sleep.Event.acquire.inj he
      exact .inr (by rw [hline]; simp [Line.next])
    · exact nomatch he
  | release _ hstep | sleepCall _ hstep | wakeupCall _ hstep | wakeupReturn _ hstep =>
    exact .inl (by simpa using hstep.owner_back m.lock_ne hp)
  | sleepReturn hline hstep =>
    rcases hstep.owner_back m.lock_ne hp with hp | he | ⟨c, he⟩
    · exact .inl hp
    · exact nomatch he
    · obtain ⟨rfl, -⟩ := Sleep.Event.sleepReturn.inj he
      exact .inr (by rw [hline]; simp [Line.next])

/-! ## Who holds the lock -/

variable (m) in
/-- **A process is tied to its place** in `sleep` and `wakeup`, and holds the lock everywhere inside but
in the part of `sleep` that gives it up. -/
structure Tied (s : State n Lock Chan Ctl σ) (p : Fin n) : Prop where
  asleep : ∀ c l, (s.sys.phase p).call = some (c, l) →
    l = m.lock ∧ ∃ k, m.line (s.ctl p) = .sleep c k
  waking : ∀ c, (s.sys.phase p).waking = some c → ∃ k, m.line (s.ctl p) = .wakeup c k
  held : m.inside (s.ctl p) = true →
    ((s.sys.phase p).call = none ∨ (s.sys.phase p).early = true) →
    s.sys.owner m.lock = some (.proc p)

omit [DecidableEq Lock] [DecidableEq Chan] in
/-- Outside of `sleep` and `wakeup` only the lock matters. -/
theorem Tied.of_run (hph : s.sys.phase p = .run)
    (hin : m.inside (s.ctl p) = true → s.sys.owner m.lock = some (.proc p)) : Tied m s p := by
  refine ⟨fun c l hc => ?_, fun c hc => ?_, fun h _ => hin h⟩
  · simp [hph, Sleep.Phase.call] at hc
  · simp [hph, Sleep.Phase.waking] at hc

omit [DecidableEq Lock] [DecidableEq Chan] in
theorem Start.tied (h : Start m s) (p : Fin n) : Tied m s p := by
  refine ⟨fun c l hc => ?_, fun c hc => ?_, fun hin => ?_⟩
  · rcases h.sys.phase p with ⟨hph, -⟩ | ⟨hph, -⟩ <;>
      simp [hph, Sleep.Phase.call, Sleep.Resume.call] at hc
  · rcases h.sys.phase p with ⟨hph, -⟩ | ⟨hph, -⟩ <;> simp [hph, Sleep.Phase.waking] at hc
  · simp [h.outside p] at hin

omit [DecidableEq Lock] [DecidableEq Chan] in
/-- Where the line is not `sleep`, the process is not in it. -/
theorem Tied.call_eq_none (ht : Tied m s p) (hline : ∀ c k, m.line (s.ctl p) ≠ .sleep c k) :
    (s.sys.phase p).call = none := by
  cases hcall : (s.sys.phase p).call with
  | none => rfl
  | some x =>
    obtain ⟨-, k, hk⟩ := ht.asleep x.1 x.2 hcall
    exact absurd hk (hline x.1 k)

omit [DecidableEq Lock] [DecidableEq Chan] in
/-- Inside, and not in `sleep`, the lock is held. -/
theorem Tied.owner (ht : Tied m s p) (hin : m.inside (s.ctl p) = true)
    (hline : ∀ c k, m.line (s.ctl p) ≠ .sleep c k) : s.sys.owner m.lock = some (.proc p) :=
  ht.held hin (.inl (ht.call_eq_none hline))

omit [DecidableEq Lock] [DecidableEq Chan] in
/-- **One process at a time is under the lock.** -/
theorem Tied.unique (hp : Tied m s p) (hq : Tied m s q) (hinp : m.inside (s.ctl p) = true)
    (hinq : m.inside (s.ctl q) = true) (hlp : ∀ c k, m.line (s.ctl p) ≠ .sleep c k)
    (hlq : ∀ c k, m.line (s.ctl q) ≠ .sleep c k) : p = q := by
  simpa using (hp.owner hinp hlp).symm.trans (hq.owner hinq hlq)

theorem Tied.own (h : Step m s a s') (ht : Tied m s p) (ha : a.actor = some p) : Tied m s' p := by
  cases h with
  | @inside e sys hsil hstep =>
    obtain rfl : e = .tau p := by
      cases e <;> simp_all [Silent, Label.actor, Sleep.Event.actor]
    obtain ⟨hcall, hwaking, hlate, hown⟩ := hstep.tau_inv
    refine ⟨fun c l hc => ht.asleep c l (hcall ▸ hc), fun c hc => ht.waking c (hwaking ▸ hc),
      fun hin hlow => ?_⟩
    rcases hlow with hnone | hearly
    · have hnone' : (s.sys.phase p).call = none := hcall ▸ hnone
      refine (hown m.lock m.lock_ne).1 (ht.held hin (.inl hnone')) ?_
      rw [Sleep.Phase.early_of_call hnone, Sleep.Phase.early_of_call hnone']
    · have hbefore : (s.sys.phase p).early = true := by
        by_contra hno
        rw [hlate (by simpa using hno)] at hearly
        simp at hearly
      exact (hown m.lock m.lock_ne).1 (ht.held hin (.inr hbefore)) (hbefore.trans hearly.symm)
  | own hline hph hturn =>
    obtain rfl := Option.some.inj ha
    refine .of_run hph fun hin => ht.held ?_ (.inl (by rw [hph]; rfl))
    rw [← m.turns hline hturn]
    simpa using hin
  | acquire hline hstep =>
    obtain rfl := Option.some.inj ha
    cases hstep with
    | acquire hph _ => exact .of_run hph fun _ => if_pos rfl
  | release hline hstep =>
    obtain rfl := Option.some.inj ha
    cases hstep with
    | release hph _ => exact .of_run hph fun hin => by simp [(m.releases hline).2] at hin
  | @sleepCall _ c k sys hline hstep =>
    obtain rfl := Option.some.inj ha
    obtain ⟨-, hown, hph, howner⟩ := hstep.sleepCall_of_ne m.lock_ne
    refine ⟨fun c' l hc => ?_, fun c' hc => ?_, fun _ _ => ?_⟩
    · obtain ⟨rfl, rfl⟩ : c = c' ∧ m.lock = l := by simpa [hph, Sleep.Phase.call] using hc
      exact ⟨rfl, k, hline⟩
    · simp [hph, Sleep.Phase.waking] at hc
    · change sys.owner m.lock = _
      rw [howner, hown]
  | sleepReturn hline hstep =>
    obtain rfl := Option.some.inj ha
    obtain ⟨hph, hown⟩ := hstep.sleepReturn_of_ne m.lock_ne
    exact .of_run hph fun _ => hown
  | wakeupCall hline hstep =>
    obtain rfl := Option.some.inj ha
    cases hstep with
    | wakeupCall hph =>
      have hown := ht.held (m.wakes hline) (.inl (by rw [hph]; rfl))
      refine ⟨fun c l hc => ?_, fun c hc => ?_, fun _ _ => hown⟩
      · simp [Sleep.Phase.call] at hc
      · obtain rfl : _ = c := by simpa [Sleep.Phase.waking] using hc
        exact ⟨_, hline⟩
  | wakeupReturn hline hstep =>
    obtain rfl := Option.some.inj ha
    cases hstep with
    | wakeupReturn hph =>
      exact .of_run (if_pos rfl) fun _ => ht.held (m.wakes hline) (.inl (by rw [hph]; rfl))

/-- **Every process stays tied to its place.** -/
theorem Tied.step (h : Step m s a s') (hs : ∀ p, Sleep.Sound m.ptable s.sys p) (ht : Tied m s p) :
    Tied m s' p := by
  by_cases ha : a.actor = some p
  · exact .own h ht ha
  obtain ⟨hphase, hown⟩ := h.sys_of_other hs ha
  have hctl := h.ctl_of_other ha
  refine ⟨fun c l hc => ?_, fun c hc => ?_, fun hin hlow => ?_⟩
  · rw [hctl]
    exact ht.asleep c l (hphase ▸ hc)
  · rw [hctl]
    exact ht.waking c (hphase ▸ hc)
  · rw [hctl] at hin
    rw [hphase] at hlow
    exact hown (ht.held hin hlow)

variable (m) in
/-- The two protocols together. -/
structure Good (s : State n Lock Chan Ctl σ) : Prop where
  sound : ∀ p, Sleep.Sound m.ptable s.sys p
  tied : ∀ p, Tied m s p

omit [DecidableEq Lock] [DecidableEq Chan] in
theorem Start.good (h : Start m s) : Good m s := ⟨h.sys.sound, h.tied⟩

theorem Good.step (hg : Good m s) (h : Step m s a s') : Good m s' :=
  ⟨h.sound hg.sound, fun p => (hg.tied p).step h hg.sound⟩

/-! ## Wakeups owed -/

variable (m) in
/-- **Who owes a wakeup**: the lines from which a process calls `wakeup(c)` before it drops the
lock. -/
structure Duty where
  owes : Ctl → Chan → Bool
  inside : ∀ {k c}, owes k c = true → m.inside k = true
  releases : ∀ {k c k'}, m.line k = .release k' → owes k c = false
  sleeps : ∀ {k c c' k'}, m.line k = .sleep c' k' → owes k c = false
  wakes : ∀ {k c c' k'}, m.line k = .wakeup c' k' → owes k c = true → c ≠ c' → owes k' c = true

variable {u : Duty m}

variable (u) in
/-- `q` holds the lock and owes a wakeup that has not come by slot `p` yet. -/
structure Owes (s : State n Lock Chan Ctl σ) (q p : Fin n) (c : Chan) : Prop where
  holds : s.sys.owner m.lock = some (.proc q)
  owes : u.owes (s.ctl q) c = true
  ahead : Sleep.Ahead s.sys q p c

variable (u) in
/-- **Nobody is asleep for what is so**, but for wakeups under way. -/
def Waiting (Waits : σ → Chan → Prop) (s : State n Lock Chan Ctl σ) : Prop :=
  ∀ p c, Sleep.Asleep s.sys p c → Waits s.data c ∨ ∃ q, Owes u s q p c

/-- A process falls asleep from its line of `sleep`, with the lock. -/
theorem asleep_back (hg : Good m s) (h : Step m s a s') (hp : Sleep.Asleep s'.sys p c) :
    Sleep.Asleep s.sys p c ∨ (∃ k, m.line (s.ctl p) = .sleep c k)
      ∧ s.sys.owner m.lock = some (.proc p) := by
  rcases h.sys_cases with ⟨e, rfl, hstep, -⟩ | ⟨-, -, hsys⟩
  · rcases hp.back hg.sound hstep with hp | ⟨l, hdrop⟩ | hdoze
    · exact .inl hp
    · have hcall : (s.sys.phase p).call = some (c, l) := by rw [hdrop]; rfl
      obtain ⟨rfl, hline⟩ := (hg.tied p).asleep c l hcall
      exact .inr ⟨hline, ((hg.sound p).lock c m.lock (.inr hdrop)).2⟩
    · have hcall := ((hg.tied p).step h hg.sound).asleep c m.ptable (by rw [hdoze]; rfl)
      exact absurd hcall.1.symm m.lock_ne
  · left
    rwa [hsys] at hp

omit [DecidableEq Lock] [DecidableEq Chan] in
/-- Not in `wakeup` yet. -/
theorem Owes.of_run (hg : Good m s) (hph : s.sys.phase q = .run)
    (howes : u.owes (s.ctl q) c = true) : Owes u s q p c := by
  exact ⟨(hg.tied q).held (u.inside howes) (.inl (by rw [hph]; rfl)), howes, .of_run hph⟩

section Rule

variable {Waits : σ → Chan → Prop}

/-- **What the rule asks of a line of the code's own**: what is waited for stays away, unless the
process owes a wakeup after it; and a wakeup owed is still owed. -/
def Keeps (u : Duty m) (Waits : σ → Chan → Prop) (d : σ) (k : Ctl) (d' : σ) (k' : Ctl) : Prop :=
  ∀ c, Waits d c ∨ u.owes k c = true → Waits d' c ∨ u.owes k' c = true

/-- A wakeup owed is owed until it has come by, or is not needed any more. -/
theorem Owes.own (hg : Good m s) (h : Step m s a s') (ha : a.actor = some q)
    (hturn : ∀ p d k, m.turn s.data (s.ctl p) d k → Keeps u Waits s.data (s.ctl p) d k)
    (ho : Owes u s q p c) (hp : Sleep.Asleep s.sys p c) (hp' : Sleep.Asleep s'.sys p c) :
    Waits s'.data c ∨ Owes u s' q p c := by
  have howes := ho.owes
  have hg' := hg.step h
  cases h with
  | @inside e sys hsil hstep =>
    obtain rfl : e = .tau q := by
      cases e <;> simp_all [Silent, Label.actor, Sleep.Event.actor]
    obtain ⟨hcall, -, -, hown⟩ := hstep.tau_inv
    have hnone : (s.sys.phase q).call = none := by
      refine (hg.tied q).call_eq_none fun c' k hline => ?_
      simp [u.sleeps hline] at howes
    have hearly : (s.sys.phase q).early = (sys.phase q).early := by
      rw [Sleep.Phase.early_of_call hnone, Sleep.Phase.early_of_call (hcall.trans hnone)]
    exact .inr ⟨(hown m.lock m.lock_ne).1 ho.holds hearly, howes,
      ho.ahead.tau hg.sound hstep hp hp'⟩
  | own hline hph ht =>
    obtain rfl := Option.some.inj ha
    refine (hturn _ _ _ ht c (.inr howes)).imp_right fun howes' => ?_
    exact .of_run hg' hph (by simpa using howes')
  | acquire hline =>
    obtain rfl := Option.some.inj ha
    exact absurd (u.inside howes) (by simp [m.acquires hline])
  | release hline =>
    obtain rfl := Option.some.inj ha
    simp [u.releases hline] at howes
  | sleepCall hline | sleepReturn hline =>
    obtain rfl := Option.some.inj ha
    simp [u.sleeps hline] at howes
  | wakeupCall hline hstep =>
    obtain rfl := Option.some.inj ha
    cases hstep
    exact .inr ⟨ho.holds, howes, by simp, by simp⟩
  | @wakeupReturn _ c' k sys hline hstep =>
    obtain rfl := Option.some.inj ha
    cases hstep with
    | wakeupReturn hph =>
      have hne : c ≠ c' := fun hc => ho.ahead.calling (hc ▸ hph)
      exact .inr (.of_run hg' (if_pos rfl) (by simpa using u.wakes hline howes hne))

/-- **The rule for waiting.** -/
theorem Waiting.step (hw : Waiting u Waits s) (hg : Good m s) (h : Step m s a s')
    (hsleep : ∀ p c k, m.line (s.ctl p) = .sleep c k → s.sys.owner m.lock = some (.proc p) →
      Waits s.data c)
    (hturn : ∀ p d k, m.turn s.data (s.ctl p) d k → Keeps u Waits s.data (s.ctl p) d k) :
    Waiting u Waits s' := by
  intro p c hp'
  have hstays : Waits s.data c → Waits s'.data c ∨ ∃ q, Owes u s' q p c := fun hwaits => by
    have hg' := hg.step h
    cases h with
    | own _ hph ht =>
      refine (hturn _ _ _ ht c (.inl hwaits)).imp_right fun howes => ⟨_, .of_run hg' hph ?_⟩
      simpa using howes
    | _ => exact .inl hwaits
  rcases asleep_back hg h hp' with hp | ⟨⟨k, hline⟩, hown⟩
  · rcases hw p c hp with hwaits | ⟨q, ho⟩
    · exact hstays hwaits
    · by_cases ha : a.actor = some q
      · exact (ho.own hg h ha hturn hp hp').imp_right fun ho' => ⟨q, ho'⟩
      · obtain ⟨hphase, hown⟩ := h.sys_of_other hg.sound ha
        refine .inr ⟨q, hown ho.holds, ?_, ?_, ?_⟩
        · rw [h.ctl_of_other ha]
          exact ho.owes
        · rw [hphase]
          exact ho.ahead.ahead
        · rw [hphase]
          exact ho.ahead.calling
  · exact hstays (hsleep p c k hline hown)

omit [DecidableEq Lock] [DecidableEq Chan] in
/-- While the lock is free nobody is asleep for what is so. -/
theorem Waiting.of_free (hw : Waiting u Waits s) (hg : Good m s) (hfree : s.sys.owner m.lock = none)
    (hst : s.sys.state p = .sleeping) (hchan : s.sys.chan p = some c) : Waits s.data c := by
  have hbed := ((hg.sound p).asleep hst).2.symm.trans hchan
  rcases hw p c (.inr ⟨hst, hbed⟩) with hwaits | ⟨q, ho⟩
  · exact hwaits
  · simpa [hfree] using ho.holds

omit [DecidableEq Lock] [DecidableEq Chan] in
theorem Start.waiting (h : Start m s) : Waiting u Waits s := by
  intro p c hp
  rcases h.sys.phase p with ⟨hph, hst⟩ | ⟨hph, hst⟩ <;> simp [Sleep.Asleep, hph, hst] at hp

end Rule

end Xv6.Monitor
