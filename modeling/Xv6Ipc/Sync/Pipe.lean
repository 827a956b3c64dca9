import Xv6Ipc.Machinery.Ring
import Xv6Ipc.Sync.Monitor

/-!
# Sync/Pipe — pipes as monitors

`pipewrite`, `piperead` and `pipeclose` run under the pipe's lock and give it up in `sleep`:

    acquire ─▸ run ⇄ … ─▸ wakeup ─▸ sleep ─▸ run        the pipe is full, or empty
                     └──▸ wakeup ─▸ release ─▸ idle     done

What they do to the pipe between two such points is a turn of a loop at a time, a byte or a test;
what they do to locks and the process table are the steps of `Sync/Sleep`.  The counters run freely
through all 2³² values; `stored` and `delivered` remember every byte there was.
-/

namespace Xv6.Pipes

def PIPESIZE : Nat := 512

/-- The two locks in play. -/
inductive Lock where
  | ptable
  | pipe
  deriving DecidableEq

/-- The channels `&p->nread` and `&p->nwrite`. -/
inductive Chan where
  | nread
  | nwrite
  deriving DecidableEq

/-- `struct pipe`. -/
structure Pipe where
  data : Nat → Nat
  nread : Nat
  nwrite : Nat
  readopen : Bool
  writeopen : Bool

namespace Pipe

/-- Nothing to read. -/
def Empty (p : Pipe) : Prop := p.nread = p.nwrite

/-- No room to write. -/
def Full (p : Pipe) : Prop := p.nwrite = (p.nread + PIPESIZE) % 0x100000000

instance (p : Pipe) : Decidable p.Empty := inferInstanceAs (Decidable (_ = _))

instance (p : Pipe) : Decidable p.Full := inferInstanceAs (Decidable (_ = _))

/-- `p->data[p->nwrite++ % PIPESIZE] = b`. -/
def put (p : Pipe) (b : Nat) : Pipe :=
  { p with
    data := Sleep.set p.data (p.nwrite % PIPESIZE) b, nwrite := (p.nwrite + 1) % 0x100000000 }

/-- The byte `p->data[p->nread % PIPESIZE]`. -/
def next (p : Pipe) : Nat := p.data (p.nread % PIPESIZE)

/-- …and the pipe when it is read. -/
def drop (p : Pipe) : Pipe := { p with nread := (p.nread + 1) % 0x100000000 }

/-- The flag of the write end or of the read end. -/
def isOpen (p : Pipe) (writable : Bool) : Bool := if writable then p.writeopen else p.readopen

/-- Close an end. -/
def shut (p : Pipe) (writable : Bool) : Pipe :=
  if writable then { p with writeopen := false } else { p with readopen := false }

/-- The bytes as a ring. -/
def ring (p : Pipe) : Ring.Buffer Nat := ⟨p.data, p.nread, p.nwrite⟩

@[simp] theorem shut_ring (p : Pipe) (w : Bool) : (p.shut w).ring = p.ring := by
  cases w <;> rfl

end Pipe

/-! ## Where a process is -/

/-- Under the lock: at turn `i` of `pipewrite(p, addr, n)`, at the test of `piperead(p, addr, n)`, or
at the start of `pipeclose(p, writable)`. -/
inductive Body where
  | write (addr : Nat → Nat) (n : Int) (i : Nat)
  | read (n : Int)
  | close (writable : Bool)

/-- What a call comes to: a write that stored `i` bytes and answers `r`, a read of at most `n` bytes
that answers `r`, or a close. -/
inductive Ret where
  | wrote (addr : Nat → Nat) (i : Nat) (r : Int)
  | got (n : Int) (r : Int)
  | closed

/-- What a call does after a `wakeup`. -/
inductive After where
  | sleep (c : Chan) (b : Body)
  | release (r : Ret)

/-- The control point of a process: outside of the pipe's functions, or before the line the name
says. -/
inductive Ctl where
  | idle
  | acquire (b : Body)
  | run (b : Body)
  | copy (n : Int) (i : Nat)
  | wakeup (c : Chan) (k : After)
  | sleep (c : Chan) (b : Body)
  | release (r : Ret)

/-- Go on after a `wakeup`. -/
def After.ctl : After → Ctl
  | .sleep c b => .sleep c b
  | .release r => .release r

/-! A process that is writing or reading has the end it uses open, in some descriptor: that end is
not closed before it is done. -/

/-- The end a call is reading or writing through. -/
def Body.user : Body → Option Bool
  | .write _ _ _ => some true
  | .read _ => some false
  | .close _ => none

def Ret.user : Ret → Option Bool
  | .wrote _ _ _ => some true
  | .got _ _ => some false
  | .closed => none

def After.user : After → Option Bool
  | .sleep _ b => b.user
  | .release r => r.user

def Ctl.user : Ctl → Option Bool
  | .idle => none
  | .acquire b => b.user
  | .run b => b.user
  | .copy _ _ => some false
  | .wakeup _ k => k.user
  | .sleep _ b => b.user
  | .release r => r.user

/-! The bytes a write under way has stored so far. -/

def Body.part : Body → List Nat
  | .write addr _ i => (List.range i).map addr
  | .read _ => []
  | .close _ => []

def Ret.part : Ret → List Nat
  | .wrote addr i _ => (List.range i).map addr
  | .got _ _ => []
  | .closed => []

def After.part : After → List Nat
  | .sleep _ b => b.part
  | .release r => r.part

/-- The bytes a write under way has stored so far. -/
def Ctl.part : Ctl → List Nat
  | .idle => []
  | .acquire b => b.part
  | .run b => b.part
  | .copy _ _ => []
  | .wakeup _ k => k.part
  | .sleep _ b => b.part
  | .release r => r.part

@[simp] theorem After.ctl_part (k : After) : k.ctl.part = k.part := by cases k <;> rfl

@[simp] theorem After.ctl_user (k : After) : k.ctl.user = k.user := by cases k <;> rfl

/-! ## The machine -/

/-- A pipe and the processes that use it.  `live` tells which end still has descriptors, `stored` and
`delivered` are all bytes that went in, with their writers, and out, and `log` is what each process's
finished writes have stored. -/
structure State (n : Nat) where
  sys : Sleep.State n Lock Chan
  pipe : Pipe
  ctl : Fin n → Ctl
  live : Bool → Bool
  stored : List (Fin n × Nat)
  delivered : List Nat
  log : Fin n → List Nat

variable {n : Nat}

/-- Move a process to another line. -/
def State.goto (s : State n) (p : Fin n) (k : Ctl) : State n := { s with ctl := Sleep.set s.ctl p k }

@[simp] theorem State.goto_ctl (s : State n) (p q : Fin n) (k : Ctl) :
    (s.goto p k).ctl q = if q = p then k else s.ctl q := rfl

@[simp] theorem State.goto_pipe (s : State n) (p : Fin n) (k : Ctl) : (s.goto p k).pipe = s.pipe := rfl

/-- A turn of the loop of `pipewrite`: a byte, or a test that ends it or leads to `sleep`. -/
def writeTurn (s : State n) (p : Fin n) (addr : Nat → Nat) (m : Int) (i : Nat) : State n :=
  if (i : Int) < m then
    if s.pipe.Full then
      if s.pipe.readopen = false ∨ s.sys.killed p = true then
        s.goto p (.release (.wrote addr i (-1)))
      else s.goto p (.wakeup .nread (.sleep .nwrite (.write addr m i)))
    else
      { s.goto p (.run (.write addr m (i + 1))) with
        pipe := s.pipe.put (addr i), stored := s.stored ++ [(p, addr i)] }
  else s.goto p (.wakeup .nread (.release (.wrote addr i m)))

/-- A turn of the first loop of `piperead`. -/
def readTurn (s : State n) (p : Fin n) (m : Int) : State n :=
  if s.pipe.Empty ∧ s.pipe.writeopen = true then
    if s.sys.killed p = true then s.goto p (.release (.got m (-1)))
    else s.goto p (.sleep .nread (.read m))
  else s.goto p (.copy m 0)

/-- A turn of its second loop. -/
def copyTurn (s : State n) (p : Fin n) (m : Int) (i : Nat) : State n :=
  if (i : Int) < m then
    if s.pipe.Empty then s.goto p (.wakeup .nwrite (.release (.got m i)))
    else
      { s.goto p (.copy m (i + 1)) with
        pipe := s.pipe.drop, delivered := s.delivered ++ [s.pipe.next] }
  else s.goto p (.wakeup .nwrite (.release (.got m i)))

/-- The start of `pipeclose`. -/
def closeTurn (s : State n) (p : Fin n) (writable : Bool) : State n :=
  { s.goto p (.wakeup (if writable then .nread else .nwrite) (.release .closed)) with
    pipe := s.pipe.shut writable }

def turn (s : State n) (p : Fin n) : Body → State n
  | .write addr m i => writeTurn s p addr m i
  | .read m => readTurn s p m
  | .close w => closeTurn s p w

/-- Steps inside `sleep`, `wakeup` and `yield`, of schedulers, and of `kill`. -/
def Silent : Sleep.Event n Lock Chan → Prop
  | .tau _ => True
  | .idle => True
  | .kill _ => True
  | _ => False

/-- What is seen of a step: one of `Sync/Sleep`, or one that a process takes by itself. -/
inductive Label (n : Nat) where
  | sync (e : Sleep.Event n Lock Chan)
  | own (p : Fin n)

/-- **One step.**  The last descriptor of an end goes when no call through that end is under way, and
none is opened again. -/
inductive Step : State n → Label n → State n → Prop
  | inside {s e sys} : Silent e → Sleep.Step .ptable s.sys e sys →
    Step s (.sync e) { s with sys := sys }
  | pipewrite {s p addr m} : s.ctl p = .idle → s.sys.phase p = .run → s.live true = true →
    Step s (.own p) (s.goto p (.acquire (.write addr m 0)))
  | piperead {s p m} : s.ctl p = .idle → s.sys.phase p = .run → s.live false = true →
    Step s (.own p) (s.goto p (.acquire (.read m)))
  | pipeclose {s p w} : s.ctl p = .idle → s.sys.phase p = .run → s.live w = true →
    (∀ q, (s.ctl q).user ≠ some w) →
    Step s (.own p) { s.goto p (.acquire (.close w)) with live := Sleep.set s.live w false }
  | acquire {s p b sys} : s.ctl p = .acquire b → Sleep.Step .ptable s.sys (.acquire p .pipe) sys →
    Step s (.sync (.acquire p .pipe)) { s.goto p (.run b) with sys := sys }
  | turn {s p b} : s.ctl p = .run b → s.sys.phase p = .run → Step s (.own p) (turn s p b)
  | copy {s p m i} : s.ctl p = .copy m i → s.sys.phase p = .run → Step s (.own p) (copyTurn s p m i)
  | wakeupCall {s p c k sys} : s.ctl p = .wakeup c k →
    Sleep.Step .ptable s.sys (.wakeupCall p c) sys →
    Step s (.sync (.wakeupCall p c)) { s with sys := sys }
  | wakeupReturn {s p c k sys} : s.ctl p = .wakeup c k →
    Sleep.Step .ptable s.sys (.wakeupReturn p c) sys →
    Step s (.sync (.wakeupReturn p c)) { s.goto p k.ctl with sys := sys }
  | sleepCall {s p c b sys} : s.ctl p = .sleep c b →
    Sleep.Step .ptable s.sys (.sleepCall p c .pipe) sys →
    Step s (.sync (.sleepCall p c .pipe)) { s with sys := sys }
  | sleepReturn {s p c b sys} : s.ctl p = .sleep c b →
    Sleep.Step .ptable s.sys (.sleepReturn p c .pipe) sys →
    Step s (.sync (.sleepReturn p c .pipe)) { s.goto p (.run b) with sys := sys }
  | release {s p r sys} : s.ctl p = .release r → Sleep.Step .ptable s.sys (.release p .pipe) sys →
    Step s (.sync (.release p .pipe))
      { s.goto p .idle with sys := sys, log := Sleep.set s.log p (s.log p ++ r.part) }

/-- `pipealloc`: a new pipe, with both ends open and nobody using it yet. -/
structure Start (s : State n) : Prop where
  sys : Sleep.Start s.sys
  nread : s.pipe.nread = 0
  nwrite : s.pipe.nwrite = 0
  readopen : s.pipe.readopen = true
  writeopen : s.pipe.writeopen = true
  ctl : ∀ p, s.ctl p = .idle
  live : ∀ w, s.live w = true
  stored : s.stored = []
  delivered : s.delivered = []
  log : ∀ p, s.log p = []

/-! ## Bytes in, bytes out -/

/-- **The ring holds what was stored and not delivered**, and what each process stored is what its
writes were given, in order. -/
structure Flow (s : State n) : Prop where
  ring : Ring.Holds PIPESIZE 0x100000000 s.pipe.ring (s.stored.map Prod.snd) s.delivered
  parts : ∀ p, (s.stored.filter (·.1 = p)).map Prod.snd = s.log p ++ (s.ctl p).part

variable {s s' : State n} {a : Label n} {p q : Fin n}

theorem Start.flow (h : Start s) : Flow s := by
  refine ⟨?_, fun p => ?_⟩
  · rw [h.stored, h.delivered, Pipe.ring, h.nread, h.nwrite]
    exact .nil _
  · rw [h.stored, h.log, h.ctl]
    rfl

/-- Moving to a line with the same bytes stored. -/
theorem Flow.goto (h : Flow s) {k : Ctl} (hk : k.part = (s.ctl p).part) : Flow (s.goto p k) := by
  refine ⟨h.ring, fun q => ?_⟩
  refine (h.parts q).trans (congrArg (s.log q ++ ·) ?_)
  rw [State.goto_ctl]
  split
  · next hq => rw [hq, hk]
  · rfl

/-- Storing a byte. -/
theorem Flow.store (h : Flow s) {addr : Nat → Nat} {m : Int} {i : Nat}
    (hp : s.ctl p = .run (.write addr m i)) (hroom : ¬ s.pipe.Full) :
    Flow { s.goto p (.run (.write addr m (i + 1))) with
      pipe := s.pipe.put (addr i), stored := s.stored ++ [(p, addr i)] } := by
  refine ⟨?_, fun q => ?_⟩
  · rw [List.map_append]
    refine h.ring.snoc (by decide) (by decide) (addr i) hroom ?_ fun j hj => ?_
    · exact if_pos rfl
    · exact if_neg hj
  · simp only [State.goto, Sleep.set_apply, List.filter_append, List.map_append, h.parts q]
    by_cases hq : q = p
    · subst hq
      simp [hp, Ctl.part, Body.part, List.range_succ]
    · simp [hq, Ne.symm hq]

/-- Delivering one. -/
theorem Flow.deliver (h : Flow s) {m : Int} {i : Nat} (hp : s.ctl p = .copy m i)
    (hsome : ¬ s.pipe.Empty) :
    Flow { s.goto p (.copy m (i + 1)) with
      pipe := s.pipe.drop, delivered := s.delivered ++ [s.pipe.next] } :=
  ⟨h.ring.uncons (by decide) (by decide) hsome, (h.goto (by rw [hp]; rfl)).parts⟩

theorem Flow.turn (h : Flow s) {b : Body} (hp : s.ctl p = .run b) : Flow (turn s p b) := by
  cases b with
  | write addr m i =>
    rw [Pipes.turn, writeTurn]
    split
    · split
      · split
        · exact h.goto (by rw [hp]; rfl)
        · exact h.goto (by rw [hp]; rfl)
      · next hroom => exact h.store hp hroom
    · exact h.goto (by rw [hp]; rfl)
  | read m =>
    rw [Pipes.turn, readTurn]
    split
    · split
      · exact h.goto (by rw [hp]; rfl)
      · exact h.goto (by rw [hp]; rfl)
    · exact h.goto (by rw [hp]; rfl)
  | close w =>
    have hgo := h.goto (p := p)
      (k := .wakeup (if w then .nread else .nwrite) (.release .closed)) (by rw [hp]; rfl)
    refine ⟨?_, hgo.parts⟩
    rw [Pipes.turn, closeTurn, Pipe.shut_ring]
    exact h.ring

theorem Flow.copyTurn (h : Flow s) {m : Int} {i : Nat} (hp : s.ctl p = .copy m i) :
    Flow (copyTurn s p m i) := by
  rw [Pipes.copyTurn]
  split
  · split
    · exact h.goto (by rw [hp]; rfl)
    · next hsome => exact h.deliver hp hsome
  · exact h.goto (by rw [hp]; rfl)

/-- **Every step keeps the bytes.** -/
theorem Flow.step (h : Flow s) (hstep : Step s a s') : Flow s' := by
  cases hstep with
  | inside | wakeupCall | sleepCall => exact ⟨h.ring, h.parts⟩
  | pipewrite hp | piperead hp => exact h.goto (by rw [hp]; rfl)
  | @pipeclose p w hp =>
    have hgo := h.goto (k := .acquire (.close w)) (by rw [hp]; rfl)
    exact ⟨hgo.ring, hgo.parts⟩
  | @acquire p b _ hp | @sleepReturn p _ b _ hp =>
    have hgo := h.goto (k := .run b) (by rw [hp]; rfl)
    exact ⟨hgo.ring, hgo.parts⟩
  | turn hp => exact h.turn hp
  | copy hp => exact h.copyTurn hp
  | @wakeupReturn p _ k _ hp =>
    have hgo := h.goto (k := k.ctl) (by rw [hp, After.ctl_part]; rfl)
    exact ⟨hgo.ring, hgo.parts⟩
  | release hp =>
    refine ⟨h.ring, fun q => ?_⟩
    simp only [State.goto, Sleep.set_apply, h.parts q]
    split
    · next hq => simp [hq, hp, Ctl.part]
    · rfl

/-! ## The monitor

The pipe and the lines of its functions are a monitor of `Sync/Monitor`, whatever else the machine
remembers. -/

/-- Between `acquire` and `release`. -/
def Ctl.inside : Ctl → Bool
  | .idle => false
  | .acquire _ => false
  | .run _ => true
  | .copy _ _ => true
  | .wakeup _ _ => true
  | .sleep _ _ => true
  | .release _ => true

def Ctl.line : Ctl → Monitor.Line Chan Ctl
  | .idle => .own
  | .acquire b => .acquire (.run b)
  | .run _ => .own
  | .copy _ _ => .own
  | .wakeup c k => .wakeup c k.ctl
  | .sleep c b => .sleep c (.run b)
  | .release _ => .release .idle

/-- **What a process does by itself**, in any state with that pipe; with `kills`, also when it has been
killed. -/
inductive Turn (kills : Bool) : Pipe → Ctl → Pipe → Ctl → Prop
  | call (f b) : Turn kills f .idle f (.acquire b)
  | turn {n f} (s : State n) (p b) : s.pipe = f → (kills = false → s.sys.killed p = false) →
    Turn kills f (.run b) (turn s p b).pipe ((turn s p b).ctl p)
  | copy {n f} (s : State n) (p m i) : s.pipe = f →
    Turn kills f (.copy m i) (copyTurn s p m i).pipe ((copyTurn s p m i).ctl p)

theorem turn_inside (s : State n) (p : Fin n) (b : Body) : ((turn s p b).ctl p).inside = true := by
  cases b <;> simp only [turn, writeTurn, readTurn, closeTurn] <;> split_ifs <;>
    simp [State.goto, Ctl.inside]

theorem copyTurn_inside (s : State n) (p : Fin n) (m : Int) (i : Nat) :
    ((copyTurn s p m i).ctl p).inside = true := by
  rw [copyTurn]
  split_ifs <;> simp [State.goto, Ctl.inside]

/-- The code of the pipe. -/
def code (kills : Bool) : Monitor.Code Lock Chan Ctl Pipe where
  ptable := .ptable
  lock := .pipe
  lock_ne := by decide
  line := Ctl.line
  inside := Ctl.inside
  turn := Turn kills
  acquires := fun {k _} h => by cases k <;> first | rfl | exact nomatch h
  releases := fun {k _} h => by
    cases k with
    | release => cases h; exact ⟨rfl, rfl⟩
    | _ => exact nomatch h
  sleeps := fun {k _ _} h => by cases k <;> first | rfl | exact nomatch h
  wakes := fun {k _ _} h => by cases k <;> first | rfl | exact nomatch h
  turns := fun _ h => by
    cases h with
    | call => rfl
    | turn => exact turn_inside ..
    | copy => exact copyTurn_inside ..

/-- What the monitor is about. -/
def State.mon (s : State n) : Monitor.State n Lock Chan Ctl Pipe := ⟨s.sys, s.pipe, s.ctl⟩

def Label.mon : Label n → Monitor.Label n Lock Chan
  | .sync e => .sync e
  | .own p => .own p

theorem turn_mon (s : State n) (p : Fin n) (b : Body) : (turn s p b).mon =
    { s.mon.goto p ((turn s p b).ctl p) with data := (turn s p b).pipe } := by
  cases b <;> simp only [turn, writeTurn, readTurn, closeTurn] <;> split_ifs <;>
    simp [State.mon, Monitor.State.goto, State.goto]

theorem copyTurn_mon (s : State n) (p : Fin n) (m : Int) (i : Nat) : (copyTurn s p m i).mon =
    { s.mon.goto p ((copyTurn s p m i).ctl p) with data := (copyTurn s p m i).pipe } := by
  rw [copyTurn]
  split_ifs <;> simp [State.mon, Monitor.State.goto, State.goto]

/-- **Every step is one of the monitor.** -/
theorem Step.mon (h : Step s a s') (kills : Bool)
    (hkill : kills = false → ∀ p, s.sys.killed p = false) :
    Monitor.Step (code kills) s.mon a.mon s'.mon := by
  have hline {p k} (hp : s.ctl p = k) : (code kills).line (s.mon.ctl p) = k.line :=
    congrArg Ctl.line hp
  cases h with
  | @inside e sys hsil h => exact .inside (by cases e <;> exact hsil) h
  | @pipewrite p addr m hp hph | @piperead p m hp hph | @pipeclose p w hp hph =>
    exact .own (hline hp) hph (by rw [show s.mon.ctl p = _ from hp]; exact .call ..)
  | acquire hp h => exact .acquire (hline hp) h
  | @turn p b hp hph =>
    rw [turn_mon]
    refine .own (hline hp) hph ?_
    rw [show s.mon.ctl p = _ from hp]
    exact .turn s p b rfl fun hk => hkill hk p
  | @copy p m i hp hph =>
    rw [copyTurn_mon]
    refine .own (hline hp) hph ?_
    rw [show s.mon.ctl p = _ from hp]
    exact .copy s p m i rfl
  | wakeupCall hp h => exact .wakeupCall (hline hp) h
  | wakeupReturn hp h => exact .wakeupReturn (hline hp) h
  | sleepCall hp h => exact .sleepCall (hline hp) h
  | sleepReturn hp h => exact .sleepReturn (hline hp) h
  | release hp h => exact .release (hline hp) h

theorem Start.mon (h : Start s) (kills : Bool) : Monitor.Start (code kills) s.mon :=
  ⟨h.sys, fun p => congrArg Ctl.inside (h.ctl p)⟩

/-! ## What a process knows while it holds the lock -/

/-- What one waits for on a channel is not so yet: the pipe is empty, or full, and the other end is
open. -/
def Pipe.Waits (f : Pipe) : Chan → Prop
  | .nread => f.Empty ∧ f.writeopen = true
  | .nwrite => f.Full ∧ f.readopen = true

def Ret.Knows (f : Pipe) : Ret → Prop
  | .wrote _ _ _ => True
  | .got m r => 0 < m → r = 0 → f.Empty ∧ f.writeopen = false
  | .closed => True

def After.Knows (f : Pipe) : After → Prop
  | .sleep c _ => f.Waits c
  | .release r => r.Knows f

/-- What the tests before a line have found. -/
def Ctl.Knows (f : Pipe) : Ctl → Prop
  | .idle => True
  | .acquire _ => True
  | .run _ => True
  | .copy _ i => i = 0 → ¬ (f.Empty ∧ f.writeopen = true)
  | .wakeup _ k => k.Knows f
  | .sleep c _ => f.Waits c
  | .release r => r.Knows f

theorem After.ctl_knows (f : Pipe) (k : After) : k.ctl.Knows f ↔ k.Knows f := by cases k <;> rfl

/-- The holder of the lock knows what its tests have found. -/
def Knowing (s : State n) : Prop :=
  ∀ p, s.sys.owner .pipe = some (.proc p) → (s.ctl p).Knows s.pipe

theorem knows_turn (s : State n) (p : Fin n) (b : Body) :
    ((turn s p b).ctl p).Knows (turn s p b).pipe := by
  cases b with
  | write addr m i =>
    rw [turn, writeTurn]
    split_ifs with hlt hfull hout
    · simp [Ctl.Knows, Ret.Knows]
    · have hopen : s.pipe.readopen = true := by
        by_contra hno
        exact hout (.inl (by simpa using hno))
      simpa [Ctl.Knows, After.Knows, Pipe.Waits] using ⟨hfull, hopen⟩
    · simp [State.goto, Ctl.Knows]
    · simp [Ctl.Knows, After.Knows, Ret.Knows]
  | read m =>
    rw [turn, readTurn]
    split_ifs with hwait hkill
    · simp [Ctl.Knows, Ret.Knows]
    · simpa [Ctl.Knows, Pipe.Waits] using hwait
    · simpa [Ctl.Knows] using hwait
  | close w => simp [turn, closeTurn, State.goto, Ctl.Knows, After.Knows, Ret.Knows]

theorem knows_copyTurn {m : Int} {i : Nat} (hk : (Ctl.copy m i).Knows s.pipe) :
    ((copyTurn s p m i).ctl p).Knows (copyTurn s p m i).pipe := by
  rw [copyTurn]
  split_ifs with hlt hempty
  · simp only [State.goto_ctl, if_pos, Ctl.Knows, After.Knows, Ret.Knows]
    intro _ hi
    have hopen := hk (by omega)
    simpa [hempty] using hopen
  · simp [State.goto, Ctl.Knows]
  · simp only [State.goto_ctl, if_pos, Ctl.Knows, After.Knows, Ret.Knows]
    intro hm hi
    omega

theorem Turn.knows {kills : Bool} {f f' : Pipe} {k k' : Ctl} (h : Turn kills f k f' k')
    (hk : k.Knows f) : k'.Knows f' := by
  cases h with
  | call => trivial
  | turn => exact knows_turn ..
  | copy s p m i hf =>
    subst hf
    exact knows_copyTurn hk

/-- Past a line about the lock no more is known than before. -/
theorem knows_next {f : Pipe} {k k' : Ctl} (h : k.line.next = some k') (hk : k.Knows f) :
    k'.Knows f := by
  cases k with
  | wakeup c k =>
    obtain rfl := Option.some.inj h
    exact (After.ctl_knows f k).mpr hk
  | acquire | sleep | release => cases h; trivial
  | _ => exact nomatch h

/-- The pipe changes only under its lock. -/
theorem Turn.pipe_eq {kills : Bool} {f f' : Pipe} {k k' : Ctl} (h : Turn kills f k f' k')
    (hout : k.inside = false) : f' = f := by
  cases h with
  | call => rfl
  | _ => exact nomatch hout

/-- Who comes to the lock knows nothing yet. -/
theorem knows_of_next {f : Pipe} {k k' : Ctl} (h : k.line.next = some k')
    (hk : ∀ c l, k ≠ .wakeup c l) : k'.Knows f := by
  cases k with
  | wakeup c l => exact absurd rfl (hk c l)
  | acquire | sleep | release => cases h; trivial
  | _ => exact nomatch h

/-- **Every step keeps what the holder of the lock knows.** -/
theorem Knowing.step (hk : Knowing s) (hg : Monitor.Good (code true) s.mon) (h : Step s a s') :
    Knowing s' := by
  intro p hp
  have hmon := h.mon true nofun
  by_cases hown : s.sys.owner .pipe = some (.proc p)
  · have hkp := hk p hown
    rcases hmon.data_cases with ⟨hd, hc⟩ | ⟨q, k, hnext, hd, hc⟩ | ⟨q, k, -, hline, -, hturn, hc⟩
    · rw [show s'.ctl = s.ctl from hc, show s'.pipe = s.pipe from hd]
      exact hkp
    · rw [show s'.ctl = _ from hc, show s'.pipe = s.pipe from hd, Sleep.set_apply]
      split
      · next hpq => exact knows_next (hpq ▸ hnext) hkp
      · exact hkp
    · rw [show s'.ctl = _ from hc, Sleep.set_apply]
      split
      · next hpq => exact Turn.knows (hpq ▸ hturn) hkp
      · next hpq =>
        -- the turn of another, which is not under the lock
        rw [show s'.pipe = s.pipe from Turn.pipe_eq hturn (Bool.eq_false_of_not_eq_true fun hin => ?_)]
        · exact hkp
        · have hq := (hg.tied q).owner hin (by rw [hline]; exact nofun)
          exact hpq (by simpa using hown.symm.trans hq)
  · refine knows_of_next ((hmon.owner_back hp).resolve_left hown) fun c l hctl => hown ?_
    have hctl : s.mon.ctl p = .wakeup c l := hctl
    exact (hg.tied p).owner (by rw [hctl]; rfl) (by rw [hctl]; exact nofun)

/-- **What holds throughout.** -/
structure Good (s : State n) : Prop where
  mon : Monitor.Good (code true) s.mon
  knowing : Knowing s
  flow : Flow s

theorem good_of_reach (h : Runs.Reach Start Step s) : Good s := by
  refine h.keeps (fun s h => ?_) fun s a s' h hstep => ?_
  · exact ⟨(h.mon true).good, fun p hp => by simp [h.sys.owner] at hp, h.flow⟩
  · exact ⟨h.mon.step (hstep.mon true nofun), h.knowing.step h.mon hstep, h.flow.step hstep⟩

/-- **A pipe is a bounded queue that loses nothing.**  In every state reached: what was delivered is a
prefix of what was stored; what a process stored is what its finished writes were given, and the first
bytes of the one under way; the counters are as far apart as there are bytes left, at most 512; and a
read of some bytes that answers `0` has found the write end closed and everything delivered. -/
theorem pipe_fifo (h : Runs.Reach Start Step s) :
    s.delivered <+: s.stored.map Prod.snd
      ∧ (∀ p, (s.stored.filter (·.1 = p)).map Prod.snd = s.log p ++ (s.ctl p).part)
      ∧ (s.pipe.nwrite + 0x100000000 - s.pipe.nread) % 0x100000000
        = s.stored.length - s.delivered.length
      ∧ s.stored.length - s.delivered.length ≤ 512
      ∧ ∀ p m, 0 < m → s.ctl p = .release (.got m 0) → s.pipe.writeopen = false
        ∧ s.delivered = s.stored.map Prod.snd := by
  obtain ⟨hmon, hknow, hflow⟩ := good_of_reach h
  have hsize := hflow.ring.size (by decide)
  have hroom := hflow.ring.room
  rw [List.length_map] at hsize hroom
  refine ⟨hflow.ring.fifo, hflow.parts, hsize, Nat.sub_le_iff_le_add'.mpr hroom, fun p m hm hp => ?_⟩
  have hline : s.mon.ctl p = .release (.got m 0) := hp
  have hknows := hknow p ((hmon.tied p).owner (by rw [hline]; rfl) (by rw [hline]; exact nofun))
  rw [hp] at hknows
  obtain ⟨hempty, hopen⟩ := hknows hm rfl
  exact ⟨hopen, (hflow.ring.empty_iff (by decide)).mp hempty⟩

/-- One process beside a new pipe. -/
def oneProc : State 1 where
  sys :=
    { owner := fun _ => none, state := fun _ => .running, chan := fun _ => none
      killed := fun _ => false, phase := fun _ => .run, calls := fun _ => 0 }
  pipe := ⟨fun _ => 0, 0, 0, true, true⟩
  ctl _ := .idle
  live _ := true
  stored := []
  delivered := []
  log _ := []

theorem oneProc_start : Start oneProc := by
  constructor <;> simp [oneProc]
  constructor <;> simp

/-- It writes a byte. -/
theorem pipe_fifo_byte : ∃ s : State 1, Runs.Reach Start Step s ∧ s.stored = [(0, 7)]
    ∧ s.stored.length - s.delivered.length ≤ 512 := by
  have hfirst : Step oneProc (.own 0) (oneProc.goto 0 (.acquire (.write (fun _ => 7) 1 0))) :=
    .pipewrite rfl rfl rfl
  have hcall := (Runs.Reach.init oneProc_start).step hfirst
  have hlock := hcall.step (.acquire (p := 0) rfl (.acquire rfl rfl))
  have hbyte := hlock.step (.turn (p := 0) rfl rfl)
  exact ⟨_, hbyte, by decide, (pipe_fifo hbyte).2.2.2.1⟩

end Xv6.Pipes
