import Xv6Ipc.Log.Operations

/-!
# Log/Wait — nobody waits for a log that is free

`begin_op` waits for one of two things, the end of a commit and space in the log, and `end_op` ends the
wait in two places.  Who sleeps at the log is not admitted, but for a wakeup that is on its way:

    asleep on &log   ⟹   committing  ∨  lh.n + (outstanding + 1) * 10 > 30  ∨  a wakeup is owed

With nothing outstanding and no commit under way nothing is logged either (`Census.fresh`), so there is
always somebody whose `end_op` is still to come.
-/

namespace Xv6.LogOps

open Function

open Redo (Log)

variable {size n : Nat} {s s' : State n} {a : Monitor.Label n Lock Chan} {p q : Fin n}
  {d d' : Log} {k k' : Ctl}

/-- What each process is to the log. -/
def parts (ctl : Fin n → Ctl) : Fin n → Option Part := fun p => (ctl p).part

theorem parts_set (ctl : Fin n → Ctl) (p : Fin n) (k : Ctl) :
    parts (Sleep.set ctl p k) = update (parts ctl) p k.part := by
  funext q
  rw [parts, Sleep.set_apply, update_apply, apply_ite Ctl.part]
  rfl

/-- Who is ending is under the lock. -/
theorem inside_of_ending (h : k.part = some .ending) :
    inside k = true ∧ ∀ c k', line k ≠ .sleep c k' := by
  cases k with
  | checkCommit | last => exact ⟨rfl, by simp [line]⟩
  | panic w =>
    cases w with
    | committing => exact ⟨rfl, by simp [line]⟩
    | logWrite => simp [Ctl.part] at h
  | endUnlock doCommit => cases doCommit <;> simp [Ctl.part] at h
  | _ => simp [Ctl.part] at h

theorem Census.step (h : Census s.data (parts s.ctl)) (hg : Monitor.Good (code size) s)
    (hstep : Monitor.Step (code size) s a s') : Census s'.data (parts s'.ctl) := by
  rcases hstep.data_cases with ⟨hd, hc⟩ | ⟨p, k, hnext, hd, hc⟩ | ⟨p, k, -, -, -, hturn, hc⟩
  · rwa [hd, hc]
  · rw [hd, hc, parts_set, part_next hnext]
    rwa [show (s.ctl p).part = parts s.ctl p from rfl, update_eq_self]
  · rw [hc, parts_set]
    refine h.turn rfl hturn.effect fun hp q hq => ?_
    obtain ⟨hinp, hlp⟩ := inside_of_ending hp
    obtain ⟨hinq, hlq⟩ := inside_of_ending hq
    exact (hg.tied q).unique (hg.tied p) hinq hinp hlq hlp

/-! ## Waiting -/

theorem not_admits_of_committing (h : d.committing = true) : ¬ d.Admits := fun hadm => by
  simp [hadm.1] at h

/-- Outside of the lock a turn admits nobody. -/
theorem Effect.not_admits (he : Effect d k d' k') (hout : inside k = false)
    (hcommit : k.part = some .commit → d.committing = true) (h : ¬ d.Admits) : ¬ d'.Admits := by
  cases he with
  | quiet | empty => exact h
  | clear => exact not_admits_of_committing (hcommit rfl)
  | _ => simp [inside] at hout

/-- The wakeups `end_op` owes. -/
def duty (size : Nat) : Monitor.Duty (code size) where
  owes k _ := owes k
  inside := fun {k _} h => by cases k <;> first | rfl | exact nomatch h
  releases := fun {k _ _} h => by cases k <;> first | rfl | exact nomatch h
  sleeps := fun {k _ _ _} h => by cases k <;> first | rfl | exact nomatch h
  wakes := fun {_ c c' _} _ _ hne => absurd (by cases c; cases c'; rfl) hne

/-- What one waits for at the log. -/
def Waits (d : Log) (_ : Chan) : Prop := ¬ d.Admits

/-- **A turn that may let somebody in owes a wakeup after it.** -/
theorem Effect.keeps (he : Effect d k d' k') (hcommit : k.part = some .commit → d.committing = true) :
    Monitor.Keeps (duty size) Waits d k d' k' := by
  intro c h
  cases he with
  | quiet _ _ howes =>
    rcases h with hw | ho
    · exact .inl hw
    · exact (howes ho).symm.imp not_admits_of_committing id
  | enter hadm =>
    rcases h with hw | ho
    · exact absurd hadm hw
    · exact nomatch ho
  | record b =>
    refine .inl fun hadm => ?_
    rcases h with hw | ho
    · have hle := d.record_le b
      have hroom := hadm.2
      refine hw ⟨hadm.1, Nat.le_trans (Nat.add_le_add_right hle _) hroom⟩
    · exact nomatch ho
  | count | more | reopen => exact .inr rfl
  | last => exact .inl (not_admits_of_committing rfl)
  | empty =>
    rcases h with hw | ho
    · exact .inl hw
    · exact nomatch ho
  | clear => exact .inl (not_admits_of_committing (hcommit rfl))

/-- Who comes to `sleep` has found the log closed, and holds the lock since. -/
def Aware (s : State n) : Prop :=
  ∀ p, s.ctl p = .wait → s.sys.owner .log = some (.proc p) → ¬ s.data.Admits

theorem Effect.wait (he : Effect d k d' .wait) : ¬ d'.Admits := by
  cases he with
  | quiet _ _ _ hwait => exact hwait rfl

/-- The test of `end_op` would have to find a commit under way. -/
theorem Effect.stop (he : Effect d k d' (.panic .committing)) :
    k.part = some .ending ∧ d.committing = true := by
  cases he with
  | quiet hpart _ _ _ hbusy => exact ⟨hpart.symm, hbusy rfl⟩

/-- Past a line about locks there is neither. -/
theorem next_ne (h : (line k).next = some k') : k' ≠ .wait ∧ k' ≠ .panic .committing := by
  cases k with
  | endUnlock doCommit => cases doCommit <;> cases h <;> simp
  | _ => cases h <;> simp

theorem Aware.step (h : Aware s) (hc : Census s.data (parts s.ctl)) (hg : Monitor.Good (code size) s)
    (hstep : Monitor.Step (code size) s a s') : Aware s' := by
  intro p hctl hown
  rcases hstep.owner_back hown with hown | hnext
  · rcases hstep.data_cases with ⟨hd, heq⟩ | ⟨q, k, hnext, hd, heq⟩ | ⟨q, k, -, hline, -, hturn, heq⟩
    · rw [heq] at hctl
      rw [hd]
      exact h p hctl hown
    · rw [heq, Sleep.set_apply] at hctl
      rw [hd]
      split at hctl
      · exact absurd hctl (next_ne hnext).1
      · exact h p hctl hown
    · rw [heq, Sleep.set_apply] at hctl
      split at hctl
      · -- It has just made the test.
        rw [hctl] at hturn
        exact hturn.effect.wait
      · next hne =>
        -- Another process is outside of the lock, and may at most clear the transaction.
        refine hturn.effect.not_admits ?_ (fun hp => hc.committing (.inl hp)) (h p hctl hown)
        by_contra hin
        have hq := (hg.tied q).owner (Bool.not_eq_false _ ▸ hin) (by simp [hline])
        exact hne (by simpa using hown.symm.trans hq)
  · exact absurd hctl (next_ne hnext).1

/-- **What holds throughout.** -/
structure Sane (size : Nat) (s : State n) : Prop where
  good : Monitor.Good (code size) s
  census : Census s.data (parts s.ctl)
  aware : Aware s
  waiting : Monitor.Waiting (duty size) Waits s
  calm : ∀ p, s.ctl p ≠ .panic .committing

theorem Start.monitor (h : Start s) : Monitor.Start (code size) s :=
  ⟨h.sys, fun p => by rw [h.ctl p]; rfl⟩

theorem Start.census (h : Start s) : Census s.data (parts s.ctl) := by
  have hparts : parts s.ctl = fun _ => none := by
    funext p
    rw [parts, h.ctl p]
    rfl
  rw [hparts]
  refine ⟨?_, ?_, fun _ => h.outstanding, fun _ _ => h.committing, fun _ _ => h.empty,
    fun _ _ _ => h.empty⟩
  · rw [Tally.places_none, h.outstanding]
  · rw [Tally.places_none, Tally.places_none, h.committing]
    rfl

/-- It finds none. -/
theorem calm_step (hc : Census s.data (parts s.ctl)) (h : ∀ p, s.ctl p ≠ .panic .committing)
    (hstep : Monitor.Step (code size) s a s') (p : Fin n) : s'.ctl p ≠ .panic .committing := by
  rcases hstep.data_cases with ⟨-, heq⟩ | ⟨q, k, hnext, -, heq⟩ | ⟨q, k, -, -, -, hturn, heq⟩
  · rw [heq]
    exact h p
  · rw [heq, Sleep.set_apply]
    split
    · exact (next_ne hnext).2
    · exact h p
  · rw [heq, Sleep.set_apply]
    split
    · rintro rfl
      obtain ⟨hending, hbusy⟩ := hturn.effect.stop
      simp [hc.ending q hending] at hbusy
    · exact h p

theorem sane_of_reach (h : Runs.Reach Start (Monitor.Step (code size)) s) : Sane size s := by
  refine h.keeps (fun s hs => ?_) fun s a s' h hstep => ?_
  · exact ⟨hs.monitor.good, hs.census, fun p hp => by simp [hs.ctl p] at hp, hs.monitor.waiting,
      fun p hp => by simp [hs.ctl p] at hp⟩
  · refine ⟨h.good.step hstep, h.census.step h.good hstep, h.aware.step h.census h.good hstep,
      h.waiting.step h.good hstep ?_ ?_, calm_step h.census h.calm hstep⟩
    · intro p c k hline hown
      have hctl : s.ctl p = .wait := by
        generalize s.ctl p = k' at hline
        cases k' <;> first | rfl | exact nomatch hline
      exact h.aware p hctl hown
    · exact fun p d k hturn => hturn.effect.keeps fun hp => h.census.committing (.inl hp)

/-! ## The log is never stuck -/

/-- Running `commit`. -/
def Ctl.committing : Ctl → Bool
  | .commit => true
  | .writeLog _ => true
  | .writeHead => true
  | .installTrans _ => true
  | .clear => true
  | .eraseHead => true
  | _ => false

theorem part_of_committing (h : k.committing = true) :
    k.part = some .commit ∨ k.part = some .cleared := by
  cases k with
  | eraseHead => exact .inr rfl
  | _ => first | exact .inl rfl | exact nomatch h

/-- While the lock is free, nothing is logged when nothing is outstanding. -/
theorem Sane.fresh (h : Sane size s) (hfree : s.sys.owner .log = none)
    (hzero : s.data.outstanding = 0) (hopen : s.data.committing = false) : s.data.lh.n = 0 := by
  refine h.census.fresh hzero hopen fun p hp => ?_
  obtain ⟨hin, hline⟩ := inside_of_ending hp
  have hown : s.sys.owner .log = some (.proc p) := (h.good.tied p).owner hin hline
  simp [hfree] at hown

theorem admits_of_fresh (hzero : d.outstanding = 0) (hopen : d.committing = false)
    (hn : d.lh.n = 0) : d.Admits := ⟨hopen, by rw [hn, hzero]; decide⟩

/-- **A call that finds the lock free and is admitted** is in its operation after three steps. -/
theorem begin_at_once (hp : s.ctl p = .beginOp) (hph : s.sys.phase p = .run)
    (hfree : s.sys.owner .log = none) (hadm : s.data.Admits) :
    ∃ s', Runs.Trace (Monitor.Step (code size)) s
      [.sync (.acquire p .log), .own p, .sync (.release p .log)] s' ∧ s'.ctl p = .working := by
  obtain ⟨s₁, hacquire, hctl₁, hph₁, hown₁, hdata₁⟩ :
      ∃ s₁, Monitor.Step (code size) s (.sync (.acquire p .log)) s₁ ∧ s₁.ctl p = .test
        ∧ s₁.sys.phase p = .run ∧ s₁.sys.owner .log = some (.proc p) ∧ s₁.data = s.data :=
    ⟨_, .acquire (by rw [hp]; rfl) (.acquire hph hfree), if_pos rfl, hph, rfl, rfl⟩
  have hturn : Turn size s₁.data (s₁.ctl p)
      { s₁.data with outstanding := s₁.data.outstanding + 1 } .begun := by
    rw [← hdata₁] at hadm
    rw [hctl₁]
    refine .own (congrArg some ?_)
    rw [if_neg (by simp [hadm.1]), if_neg (Nat.not_lt.mpr hadm.2)]
  obtain ⟨s₂, hown, hctl₂, hsys₂⟩ :
      ∃ s₂, Monitor.Step (code size) s₁ (.own p) s₂ ∧ s₂.ctl p = .begun ∧ s₂.sys = s₁.sys :=
    ⟨_, .own (by rw [hctl₁]; rfl) hph₁ hturn, if_pos rfl, rfl⟩
  rw [← hsys₂] at hph₁ hown₁
  exact ⟨_, .cons hacquire (.cons hown (.single
    (.release (by rw [hctl₂]; rfl) (.release hph₁ hown₁)))), if_pos rfl⟩

/-- **The log never wedges.**  While `log.lock` is free, who sleeps in `begin_op` waits for a commit
that is under way or for an operation that is outstanding; with neither, the log is empty and a new
operation begins at once.  One process at a time runs `commit`, with nothing outstanding, and `end_op`
does not panic. -/
theorem log_never_wedges (h : Runs.Reach Start (Monitor.Step (code size)) s) :
    (s.sys.owner .log = none →
        (∀ p, s.ctl p = .wait → s.sys.state p = .sleeping →
          (s.data.committing = true ∧ ∃ q, parts s.ctl q = some .commit ∨ parts s.ctl q = some .cleared)
            ∨ 0 < s.data.outstanding ∧ ∃ q, parts s.ctl q = some .op)
        ∧ (s.data.outstanding = 0 → s.data.committing = false →
          s.data.lh.n = 0 ∧ ∀ p, s.ctl p = .beginOp → s.sys.phase p = .run →
            ∃ s', Runs.Trace (Monitor.Step (code size)) s
              [.sync (.acquire p .log), .own p, .sync (.release p .log)] s' ∧ s'.ctl p = .working))
      ∧ (∀ p q, (s.ctl p).committing = true → (s.ctl q).committing = true → p = q)
      ∧ (∀ p, (s.ctl p).committing = true → s.data.outstanding = 0)
      ∧ ∀ p, s.ctl p ≠ .panic .committing := by
  have hs := sane_of_reach h
  refine ⟨fun hfree => ⟨fun p _ hst => ?_, fun hzero hopen => ?_⟩, fun p q hp hq => ?_, fun p hp => ?_,
    hs.calm⟩
  · have hasleep := (hs.good.sound p).asleep hst
    obtain ⟨c, hchan⟩ := Option.ne_none_iff_exists'.mp (hasleep.2 ▸ hasleep.1)
    have hwait : ¬ s.data.Admits := hs.waiting.of_free hs.good hfree hst hchan
    cases hcommit : s.data.committing with
    | true => exact .inl ⟨rfl, hs.census.exists_commit hcommit⟩
    | false =>
      have hpos : 0 < s.data.outstanding := by
        by_contra hzero
        have hzero := Nat.eq_zero_of_not_pos hzero
        exact hwait (admits_of_fresh hzero hcommit (hs.fresh hfree hzero hcommit))
      exact .inr ⟨hpos, hs.census.exists_op hpos⟩
  · have hn := hs.fresh hfree hzero hopen
    exact ⟨hn, fun p hp hph => begin_at_once hp hph hfree (admits_of_fresh hzero hopen hn)⟩
  · exact hs.census.unique (part_of_committing hp) (part_of_committing hq)
  · exact hs.census.apart (hs.census.committing (part_of_committing hp))

/-- A state reached, with nobody in `sleep` or `wakeup`. -/
structure Seen (s : State 2) (ctl : Fin 2 → Ctl) (d : Log) (o : Option (Sleep.Holder 2)) : Prop where
  reach : Runs.Reach Start (Monitor.Step (code 30)) s
  ctl : s.ctl = ctl
  data : s.data = d
  owner : s.sys.owner .log = o
  table : s.sys.owner .ptable = none
  phase : ∀ p, s.sys.phase p = .run

section Seen

variable {s : State 2} {ctl : Fin 2 → Ctl} {o : Option (Sleep.Holder 2)}

theorem Seen.turn (h : Seen s ctl d o) (p : Fin 2) (hline : line (ctl p) = .own)
    (hturn : Turn 30 d (ctl p) d' k) : ∃ s', Seen s' (Sleep.set ctl p k) d' o := by
  obtain ⟨hr, rfl, rfl, ho, htable, hph⟩ := h
  exact ⟨_, hr.step (.own hline (hph p) hturn), rfl, rfl, ho, htable, hph⟩

theorem Seen.acquire (h : Seen s ctl d none) (p : Fin 2) (hline : line (ctl p) = .acquire k) :
    ∃ s', Seen s' (Sleep.set ctl p k) d (some (.proc p)) := by
  obtain ⟨hr, rfl, rfl, ho, htable, hph⟩ := h
  exact ⟨_, hr.step (.acquire hline (.acquire (hph p) ho)), rfl, rfl, rfl, htable, hph⟩

theorem Seen.release (p : Fin 2) (h : Seen s ctl d (some (.proc p)))
    (hline : line (ctl p) = .release k) : ∃ s', Seen s' (Sleep.set ctl p k) d none := by
  obtain ⟨hr, rfl, rfl, ho, htable, hph⟩ := h
  exact ⟨_, hr.step (.release hline (.release (hph p) ho)), rfl, rfl, rfl, htable, hph⟩

end Seen

/-- Two processes and an empty log. -/
def twoProcs : State 2 where
  sys := {
    owner := fun _ => none
    state := fun _ => .running
    chan := fun _ => none
    killed := fun _ => false
    phase := fun _ => .run
    calls := fun _ => 0 }
  data := ⟨0, false, ⟨0, fun _ => 0⟩⟩
  ctl _ := .idle

theorem twoProcs_seen : Seen twoProcs (fun _ => .idle) ⟨0, false, ⟨0, fun _ => 0⟩⟩ none := by
  refine ⟨.init ⟨⟨fun _ => rfl, fun _ => .inl ⟨rfl, rfl⟩⟩, rfl, rfl, rfl, fun _ => rfl⟩, rfl, rfl,
    rfl, rfl, fun _ => rfl⟩

/-- One process goes to sleep while the other commits. -/
theorem log_never_wedges_two : ∃ s : State 2, s.sys.owner .log = none ∧ s.ctl 1 = .wait
    ∧ s.sys.state 1 = .sleeping ∧ (s.ctl 0).committing = true ∧ s.data.outstanding = 0
    ∧ ∃ q, parts s.ctl q = some .commit ∨ parts s.ctl q = some .cleared := by
  obtain ⟨_, h⟩ := twoProcs_seen.turn 0 rfl .beginOp
  obtain ⟨_, h⟩ := h.acquire 0 rfl
  obtain ⟨_, h⟩ := h.turn 0 rfl (.own rfl)
  obtain ⟨_, h⟩ := h.release 0 rfl
  obtain ⟨_, h⟩ := h.turn 0 rfl .endOp
  obtain ⟨_, h⟩ := h.acquire 0 rfl
  obtain ⟨_, h⟩ := h.turn 0 rfl (.own rfl)
  obtain ⟨_, h⟩ := h.turn 0 rfl (.own rfl)
  obtain ⟨_, h⟩ := h.turn 0 rfl (.own rfl)
  obtain ⟨_, h⟩ := h.release 0 rfl
  obtain ⟨_, h⟩ := h.turn 1 rfl .beginOp
  obtain ⟨_, h⟩ := h.acquire 1 rfl
  obtain ⟨s, hr, hctl, hdata, howner, htable, hph⟩ := h.turn 1 rfl (.own rfl)
  have hsleep := hr.step (.sleepCall (p := 1) (by rw [hctl]; rfl)
    (.sleepCall (hph 1) howner (code 30).lock_ne))
  have henter := hsleep.step (.inside (e := .tau 1) trivial
    (.enter (c := .log) (l := .log) rfl htable))
  have hdrop := henter.step (.inside (e := .tau 1) trivial
    (.drop (c := .log) (l := .log) rfl (by simpa [code] using howner)))
  obtain ⟨t, ht, hstate, hfree, heq⟩ : ∃ t, Runs.Reach Start (Monitor.Step (code 30)) t
      ∧ t.sys.state 1 = .sleeping ∧ t.sys.owner .log = none ∧ t.ctl = s.ctl :=
    ⟨_, hdrop.step (.inside (e := .tau 1) trivial (.doze (c := .log) (l := .log) rfl)), rfl, rfl, rfl⟩
  have hcommit : (t.ctl 0).committing = true := by rw [heq, hctl]; rfl
  have hwait : t.ctl 1 = .wait := by rw [heq, hctl]; rfl
  obtain ⟨hnow, -, hzero, -⟩ := log_never_wedges ht
  have hnone := hzero 0 hcommit
  refine ⟨t, hfree, hwait, hstate, hcommit, hnone, ?_⟩
  rcases (hnow hfree).1 1 hwait hstate with ⟨-, hq⟩ | ⟨hpos, -⟩
  · exact hq
  · exact absurd hnone hpos.ne'

end Xv6.LogOps
