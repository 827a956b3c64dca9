import Xv6Ipc.Sync.Pipe

/-!
# Sync/PipeWait — nobody waits at a pipe for what is already so

A process asleep at a pipe waits for a byte, for room, or for the other end to be closed.  While the
lock is held this may have come about already, but then the holder still has its `wakeup` to do:

    asleep on c  ⟹  it is as the sleeper found it,  or  the holder owes a wakeup(c) that has not come by

When the lock is free, only the first is left.
-/

namespace Xv6.Pipes

variable {n : Nat} {s s' : State n} {a : Label n} {p q : Fin n} {c : Chan}

/-! ## Ends -/

/-- The end a call is about to close. -/
def Body.closes : Body → Option Bool
  | .write _ _ _ => none
  | .read _ => none
  | .close w => some w

def After.closes : After → Option Bool
  | .sleep _ b => b.closes
  | .release _ => none

def Ctl.closes : Ctl → Option Bool
  | .idle => none
  | .acquire b => b.closes
  | .run b => b.closes
  | .copy _ _ => none
  | .wakeup _ k => k.closes
  | .sleep _ b => b.closes
  | .release _ => none

/-- **An end that is gone has no users.** -/
structure Ends (s : State n) : Prop where
  gone : ∀ w, s.live w = false → ∀ q, (s.ctl q).user ≠ some w
  shut : ∀ w, s.pipe.isOpen w = false → s.live w = false
  closing : ∀ w q, (s.ctl q).closes = some w → s.live w = false

theorem Start.ends (h : Start s) : Ends s := by
  refine ⟨fun w hw => ?_, fun w hw => ?_, fun w q hq => ?_⟩
  · simp [h.live w] at hw
  · cases w <;> simp [Pipe.isOpen, h.readopen, h.writeopen] at hw
  · simp [h.ctl q, Ctl.closes] at hq

/-- Moving on in a call. -/
theorem Ends.move (h : Ends s) (hlive : s'.live = s.live) (hother : ∀ q ≠ p, s'.ctl q = s.ctl q)
    (hopen : ∀ w, s'.pipe.isOpen w = false → s.pipe.isOpen w = false ∨ s.live w = false)
    (hk : ∀ w, (s'.ctl p).user = some w → s.live w = true ∨ (s.ctl p).user = some w)
    (hc : ∀ w, (s'.ctl p).closes = some w → (s.ctl p).closes = some w) : Ends s' := by
  refine ⟨fun w hw q hq => ?_, fun w hw => ?_, fun w q hq => ?_⟩
  · rw [hlive] at hw
    by_cases hqp : q = p
    · subst hqp
      rcases hk w hq with hlive | hq
      · simp [hw] at hlive
      · exact h.gone w hw q hq
    · exact h.gone w hw q (hother q hqp ▸ hq)
  · rw [hlive]
    exact (hopen w hw).elim (h.shut w) id
  · rw [hlive]
    by_cases hqp : q = p
    · subst hqp
      exact h.closing w q (hc w hq)
    · exact h.closing w q (hother q hqp ▸ hq)

@[simp] theorem After.ctl_closes (k : After) : k.ctl.closes = k.closes := by cases k <;> rfl

section Turn

variable (s : State n) (p : Fin n) (b : Body) (m : Int) (i : Nat) (w : Bool)

theorem turn_user : ((turn s p b).ctl p).user = b.user := by
  cases b <;> simp only [turn, writeTurn, readTurn, closeTurn] <;> split_ifs <;>
    simp [State.goto, Ctl.user, After.user, Ret.user, Body.user]

theorem turn_closes : ((turn s p b).ctl p).closes = none := by
  cases b <;> simp only [turn, writeTurn, readTurn, closeTurn] <;> split_ifs <;>
    simp [State.goto, Ctl.closes, After.closes, Body.closes]

theorem turn_live : (turn s p b).live = s.live := by
  cases b <;> simp only [turn, writeTurn, readTurn, closeTurn] <;> split_ifs <;> rfl

theorem turn_isOpen (h : (turn s p b).pipe.isOpen w = false) :
    s.pipe.isOpen w = false ∨ b.closes = some w := by
  cases b with
  | write addr m i =>
    left
    simp only [turn, writeTurn] at h
    split_ifs at h <;> exact h
  | read m =>
    left
    simp only [turn, readTurn] at h
    split_ifs at h <;> exact h
  | close w' =>
    cases w <;> cases w' <;> simp_all [turn, closeTurn, Pipe.shut, Pipe.isOpen, Body.closes]

theorem copyTurn_user : ((copyTurn s p m i).ctl p).user = some false := by
  rw [copyTurn]
  split_ifs <;> simp [State.goto, Ctl.user, After.user, Ret.user]

theorem copyTurn_closes : ((copyTurn s p m i).ctl p).closes = none := by
  rw [copyTurn]
  split_ifs <;> simp [State.goto, Ctl.closes, After.closes]

theorem copyTurn_live : (copyTurn s p m i).live = s.live := by
  rw [copyTurn]
  split_ifs <;> rfl

theorem copyTurn_isOpen : (copyTurn s p m i).pipe.isOpen w = s.pipe.isOpen w := by
  rw [copyTurn]
  split_ifs <;> rfl

end Turn

/-- **Every step keeps the ends in order.** -/
theorem Ends.step (h : Ends s) (hstep : Step s a s') : Ends s' := by
  have hother : ∀ p, a.mon.actor = some p → ∀ q ≠ p, s'.ctl q = s.ctl q := fun p hp q hq =>
    (hstep.mon true nofun).ctl_of_other fun hq' => hq (Option.some.inj (hq'.symm.trans hp))
  cases hstep with
  | inside | wakeupCall | sleepCall => exact ⟨h.gone, h.shut, h.closing⟩
  | pipewrite _ _ hlive =>
    refine h.move rfl (hother _ rfl) (fun _ => .inl) (fun w hw => .inl ?_) fun w hw => ?_
    · obtain rfl : true = w := by simpa [Ctl.user, Body.user] using hw
      exact hlive
    · simp [Ctl.closes, Body.closes] at hw
  | piperead _ _ hlive =>
    refine h.move rfl (hother _ rfl) (fun _ => .inl) (fun w hw => .inl ?_) fun w hw => ?_
    · obtain rfl : false = w := by simpa [Ctl.user, Body.user] using hw
      exact hlive
    · simp [Ctl.closes, Body.closes] at hw
  | @pipeclose p w _ _ hlive hnone =>
    refine ⟨fun w' hw' q hq => ?_, fun w' hw' => ?_, fun w' q hq => ?_⟩
    · by_cases hqp : q = p
      · simp [hqp, State.goto, Ctl.user, Body.user] at hq
      · rw [hother p rfl q hqp] at hq
        by_cases hww : w' = w
        · exact hnone q (hww ▸ hq)
        · exact h.gone w' (by simpa [hww] using hw') q hq
    · by_cases hww : w' = w
      · simp [hww]
      · simpa [hww] using h.shut w' hw'
    · by_cases hww : w' = w
      · simp [hww]
      · by_cases hqp : q = p
        · simp [hqp, State.goto, Ctl.closes, Body.closes, Ne.symm hww] at hq
        · rw [hother p rfl q hqp] at hq
          simpa [hww] using h.closing w' q hq
  | @acquire p b _ hctl | @sleepReturn p _ b _ hctl =>
    refine h.move rfl (hother _ rfl) (fun _ => .inl) (fun w hw => .inr ?_) fun w hw => ?_
    · simpa [hctl, State.goto, Ctl.user] using hw
    · simpa [hctl, State.goto, Ctl.closes] using hw
  | @turn p b hctl =>
    refine h.move (turn_live ..) (hother _ rfl) (fun w hw => ?_) (fun w hw => .inr ?_) fun w hw => ?_
    · rcases turn_isOpen _ _ _ _ hw with hw | hw
      · exact .inl hw
      · exact .inr (h.closing w p (by rw [hctl]; exact hw))
    · rw [turn_user] at hw
      rw [hctl]
      exact hw
    · simp [turn_closes] at hw
  | @copy p m i hctl =>
    refine h.move (copyTurn_live ..) (hother _ rfl) (fun w hw => .inl ?_) (fun w hw => .inr ?_)
      fun w hw => ?_
    · rwa [copyTurn_isOpen] at hw
    · rw [copyTurn_user] at hw
      rw [hctl]
      exact hw
    · simp [copyTurn_closes] at hw
  | @wakeupReturn p _ k _ hctl =>
    refine h.move rfl (hother _ rfl) (fun _ => .inl) (fun w hw => .inr ?_) fun w hw => ?_
    · rw [hctl]
      change k.user = some w
      simpa [State.goto] using hw
    · rw [hctl]
      change k.closes = some w
      simpa [State.goto] using hw
  | release hctl =>
    refine h.move rfl (hother _ rfl) (fun _ => .inl) (fun w hw => .inr ?_) fun w hw => ?_
    · simp [State.goto, Ctl.user] at hw
    · simp [State.goto, Ctl.closes] at hw

/-! Readers sleep on `nread`. -/

def After.Shaped : After → Prop
  | .sleep c b => c = .nread → b.user = some false
  | .release _ => True

def Ctl.Shaped : Ctl → Prop
  | .idle => True
  | .acquire _ => True
  | .run _ => True
  | .copy _ _ => True
  | .wakeup _ k => k.Shaped
  | .sleep c b => c = .nread → b.user = some false
  | .release _ => True

theorem After.ctl_shaped (k : After) : k.ctl.Shaped ↔ k.Shaped := by cases k <;> rfl

theorem Step.shaped (h : Step s a s') (hs : ∀ p, (s.ctl p).Shaped) (p : Fin n) :
    (s'.ctl p).Shaped := by
  by_cases ha : a.mon.actor = some p
  · cases h with
    | inside | wakeupCall | sleepCall => exact hs p
    | @turn _ b _ _ =>
      obtain rfl := Option.some.inj ha
      cases b <;> simp only [Pipes.turn, writeTurn, readTurn, closeTurn] <;> split_ifs <;>
        simp [State.goto, Ctl.Shaped, After.Shaped, Body.user]
    | copy =>
      obtain rfl := Option.some.inj ha
      rw [copyTurn]
      split_ifs <;> simp [State.goto, Ctl.Shaped, After.Shaped]
    | wakeupReturn hctl =>
      obtain rfl := Option.some.inj ha.symm
      have hshape := hs p
      rw [hctl] at hshape
      rw [State.goto_ctl, if_pos rfl]
      exact (After.ctl_shaped _).mpr hshape
    | _ =>
      obtain rfl := Option.some.inj ha
      simp [State.goto, Ctl.Shaped]
  · rw [show s'.ctl p = s.ctl p from (h.mon true (by rintro ⟨⟩)).ctl_of_other ha]
    exact hs p

/-! ## Wakeups owed -/

def Body.owes (c : Chan) : Body → Bool
  | .write _ _ _ => c = .nread
  | .read _ => false
  | .close w => c = if w then .nread else .nwrite

/-- The process will call `wakeup(c)`, or is in it, before it drops the lock. -/
def Ctl.owes (c : Chan) : Ctl → Bool
  | .idle => false
  | .acquire _ => false
  | .run b => b.owes c
  | .copy _ _ => c = .nwrite
  | .wakeup c' _ => c = c'
  | .sleep _ _ => false
  | .release _ => false

/-- The wakeups that the functions owe. -/
def duty : Monitor.Duty (code false) where
  owes k c := k.owes c
  inside := fun {k _} h => by cases k <;> first | rfl | exact nomatch h
  releases := fun {k _ _} h => by cases k <;> first | rfl | exact nomatch h
  sleeps := fun {k _ _ _} h => by cases k <;> first | rfl | exact nomatch h
  wakes := fun {k c c' k'} h howes hne => by
    cases k with
    | wakeup d l =>
      cases h
      exact absurd (of_decide_eq_true howes) hne
    | _ => exact nomatch h

/-- What is waited for on a channel; with the read end closed there is nobody to wait for a byte. -/
def Waits (f : Pipe) (c : Chan) : Prop := f.Waits c ∨ c = .nread ∧ f.readopen = false

theorem keeps_turn (s : State n) (p : Fin n) (b : Body) (hkill : s.sys.killed p = false) :
    Monitor.Keeps duty Waits s.pipe (.run b) (turn s p b).pipe ((turn s p b).ctl p) := by
  intro c h
  cases b with
  | write addr m i =>
    rw [turn, writeTurn]
    split_ifs with hlt hfull hout
    · -- the read end is closed, since nobody was killed
      have hclosed : s.pipe.readopen = false := by simpa [hkill] using hout
      cases c with
      | nread => exact .inl (.inr ⟨rfl, hclosed⟩)
      | nwrite => exact h.imp_right fun howes => by cases howes
    · cases c with
      | nread => exact .inr (by simp [duty, Ctl.owes])
      | nwrite => exact h.imp_right fun howes => by cases howes
    · cases c with
      | nread => exact .inr (by simp [State.goto, duty, Ctl.owes, Body.owes])
      | nwrite =>
        rcases h with (hw | ⟨hc, -⟩) | howes
        · exact absurd hw.1 hfull
        · cases hc
        · cases howes
    · cases c with
      | nread => exact .inr (by simp [duty, Ctl.owes])
      | nwrite => exact h.imp_right fun howes => by cases howes
  | read m =>
    rw [turn, readTurn]
    split_ifs <;> exact h.imp_right fun howes => by cases howes
  | close w =>
    by_cases hc : c = if w then .nread else .nwrite
    · exact .inr (by simp [turn, closeTurn, State.goto, duty, Ctl.owes, hc])
    · left
      have hw : Waits s.pipe c := h.resolve_right fun howes => hc (of_decide_eq_true howes)
      cases c <;> cases w <;> simp at hc
      · exact .inr ⟨rfl, rfl⟩
      · exact hw

theorem keeps_copyTurn (s : State n) (p : Fin n) (m : Int) (i : Nat) :
    Monitor.Keeps duty Waits s.pipe (.copy m i) (copyTurn s p m i).pipe
      ((copyTurn s p m i).ctl p) := by
  intro c h
  rw [copyTurn]
  cases c with
  | nwrite => split_ifs <;> exact .inr (by simp [State.goto, duty, Ctl.owes])
  | nread =>
    left
    have hw : Waits s.pipe .nread := h.resolve_right fun howes => by cases howes
    split_ifs with hlt hempty
    · exact hw
    · exact .inr (hw.resolve_left fun hw => hempty hw.1)
    · exact hw

/-- **A turn that may let somebody on owes a wakeup after it**, unless its process was killed. -/
theorem Turn.keeps {f f' : Pipe} {k k' : Ctl} (h : Turn false f k f' k') :
    Monitor.Keeps duty Waits f k f' k' := by
  cases h with
  | call => exact fun c h => h.imp_right fun howes => nomatch howes
  | turn s p b hf hkill =>
    subst hf
    exact keeps_turn s p b (hkill rfl)
  | copy s p m i hf =>
    subst hf
    exact keeps_copyTurn s p m i

/-- While readers are asleep the read end is open. -/
theorem readopen_of_asleep (hg : Good s) (he : Ends s) (hsh : ∀ p, (s.ctl p).Shaped)
    (hp : Sleep.Asleep s.sys p .nread) : s.pipe.readopen = true := by
  obtain ⟨l, hcall⟩ := hp.call
  obtain ⟨-, k, hline⟩ := (hg.mon.tied p).asleep .nread l hcall
  have huser : (s.ctl p).user = some false := by
    have hshape := hsh p
    have hline : (s.ctl p).line = .sleep .nread k := hline
    cases hctl : s.ctl p with
    | sleep c b =>
      rw [hctl] at hline hshape
      cases hline
      exact hshape rfl
    | _ => rw [hctl] at hline; exact nomatch hline
  by_contra hno
  exact he.gone false (he.shut false (by simpa [Pipe.isOpen] using hno)) p huser

/-- What holds while nobody is killed. -/
structure Quiet (s : State n) : Prop where
  ends : Ends s
  shaped : ∀ p, (s.ctl p).Shaped
  waiting : (∀ p, s.sys.killed p = false) → Monitor.Waiting duty Waits s.mon

theorem Step.killed_back (h : Step s a s') (hp : s'.sys.killed p = false) :
    s.sys.killed p = false := by
  rcases (h.mon true nofun).sys_cases with ⟨e, -, hstep, -⟩ | ⟨-, -, hsys⟩
  · exact hstep.killed_back hp
  · rwa [show s'.sys = s.sys from hsys] at hp

theorem Knowing.waits {k : Ctl} (hk : Knowing s) (hline : (s.ctl p).line = .sleep c k)
    (hown : s.sys.owner .pipe = some (.proc p)) : Waits s.pipe c := by
  have hknows := hk p hown
  cases hctl : s.ctl p with
  | sleep c' b =>
    rw [hctl] at hknows hline
    cases hline
    exact .inl hknows
  | _ => rw [hctl] at hline; exact nomatch hline

/-- Where processes are does not depend on kills. -/
theorem Good.calm (h : Good s) : Monitor.Good (code false) s.mon :=
  ⟨h.mon.sound, fun p => ⟨(h.mon.tied p).asleep, (h.mon.tied p).waking, (h.mon.tied p).held⟩⟩

theorem quiet_of_reach (h : Runs.Reach Start Step s) : Quiet s := by
  have hreach := h
  induction h with
  | init hs =>
    refine ⟨hs.ends, fun p => ?_, fun _ => (hs.mon false).waiting⟩
    rw [hs.ctl p]
    trivial
  | step hr hstep ih =>
    have hq := ih hr
    have hg := good_of_reach hr
    refine ⟨hq.ends.step hstep, hstep.shaped hq.shaped, fun hkill => ?_⟩
    have hbefore := fun p => hstep.killed_back (hkill p)
    exact (hq.waiting hbefore).step hg.calm (hstep.mon false fun _ => hbefore)
      (fun p c k hline hown => hg.knowing.waits hline hown) fun p d k ht => Turn.keeps ht

/-- **Nobody sleeps at a pipe for what is already so.**  When the lock is free and nobody was killed:
who sleeps on `nread` finds the pipe empty and its write end open, who sleeps on `nwrite` finds it full
and its read end open; so a reader and a writer are not both asleep. -/
theorem pipe_waits (h : Runs.Reach Start Step s) (hkill : ∀ p, s.sys.killed p = false)
    (hfree : s.sys.owner .pipe = none) :
    (∀ p, s.sys.state p = .sleeping → s.sys.chan p = some .nread →
        s.pipe.Empty ∧ s.pipe.writeopen = true)
      ∧ (∀ p, s.sys.state p = .sleeping → s.sys.chan p = some .nwrite →
        s.pipe.Full ∧ s.pipe.readopen = true)
      ∧ ∀ p q, ¬ ((s.sys.state p = .sleeping ∧ s.sys.chan p = some .nread)
        ∧ s.sys.state q = .sleeping ∧ s.sys.chan q = some .nwrite) := by
  have hg := good_of_reach h
  have hq := quiet_of_reach h
  have hwait : ∀ p c, s.sys.state p = .sleeping → s.sys.chan p = some c → s.pipe.Waits c := by
    intro p c hst hchan
    refine ((hq.waiting hkill).of_free hg.calm hfree hst hchan).resolve_right ?_
    rintro ⟨rfl, hclosed⟩
    have hbed := ((hg.mon.sound p).asleep hst).2.symm.trans hchan
    exact nomatch (readopen_of_asleep hg hq.ends hq.shaped (.inr ⟨hst, hbed⟩)).symm.trans hclosed
  refine ⟨fun p => hwait p .nread, fun p => hwait p .nwrite, ?_⟩
  rintro p q ⟨⟨hp, hpc⟩, hq, hqc⟩
  have hempty : s.pipe.nread = s.pipe.nwrite := (hwait p .nread hp hpc).1
  have hfull : s.pipe.nwrite = (s.pipe.nread + 512) % 0x100000000 := (hwait q .nwrite hq hqc).1
  omega

/-- A reader finds nothing and goes to sleep. -/
theorem pipe_waits_reader : ∃ s : State 1, s.sys.state 0 = .sleeping ∧ s.sys.chan 0 = some .nread
    ∧ s.pipe.Empty ∧ s.pipe.writeopen = true := by
  have hfirst : Step oneProc (.own 0) (oneProc.goto 0 (.acquire (.read 1))) := .piperead rfl rfl rfl
  have hcall := (Runs.Reach.init oneProc_start).step hfirst
  have hlock := hcall.step (.acquire (p := 0) rfl (.acquire rfl rfl))
  have htest := hlock.step (.turn (p := 0) rfl rfl)
  have hsleep := htest.step (.sleepCall (p := 0) rfl (.sleepCall rfl rfl (by decide)))
  have henter := hsleep.step (.inside (e := .tau 0) trivial (.enter rfl rfl))
  have hdrop := henter.step (.inside (e := .tau 0) trivial (.drop rfl rfl))
  have hdoze := hdrop.step (.inside (e := .tau 0) trivial (.doze rfl))
  exact ⟨_, rfl, rfl, (pipe_waits hdoze (fun _ => rfl) rfl).1 0 rfl rfl⟩

end Xv6.Pipes
