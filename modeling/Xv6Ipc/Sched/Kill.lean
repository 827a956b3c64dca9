import Xv6Ipc.Sched.Children

/-!
# Sched/Kill — whom `kill` reaches

`kill` looks for a number and not at the state of the slot that has it.  A slot never used, or freed by
`wait`, has number `0`; one that `fork` has given back keeps the number it had:

    kill(0) ──▸ the first slot with pid 0, UNUSED:  killed := 1
    fork    ──▸ the same slot, still killed

`allocproc` does not clear `killed`, so the mark is found by the next process in the slot, which nobody
has killed.  A slot given back by a `fork` that fails keeps the mark of its `EMBRYO` in the same way.
-/

namespace Xv6.Sched

open Runs Function

variable {n : Nat} {s s' : State n} {e : Event} {c : Fin n} {p q r : Slot} {T : Table} {pid : Int}

/-! ## One call -/

/-- What `kill` makes of the entry it finds. -/
def Entry.struck (x : Entry) : Entry :=
  { x with killed := true, state := if x.state = .sleeping then .runnable else x.state }

/-- The first slot with the number. -/
def firstPid (T : Table) (pid : Int) : Option Slot := (List.finRange NPROC).find? fun q => (T q).pid = pid

/-- The first slot with the number, if there is one, is in use. -/
def Named (T : Table) (pid : Int) : Prop := ∀ q, firstPid T pid = some q → (T q).state ≠ .unused

theorem firstPid_spec (h : firstPid T pid = some q) : (T q).pid = pid := by
  simpa using List.find?_some h

theorem kill_of_firstPid (h : firstPid T pid = some q) :
    kill T pid = (0, update T q (T q).struck) := by
  rw [firstPid] at h
  rw [kill, h]
  rfl

theorem kill_of_none (h : firstPid T pid = none) : kill T pid = (-1, T) := by
  rw [firstPid] at h
  rw [kill, h]

/-- Nobody kills by a number that a slot not in use has before a process, and no `fork` fails that has been
killed in its new slot. -/
structure Careful (s : State n) (e : Event) : Prop where
  kill : ∀ p pid ret, e = .kill p pid ret → Named s.table pid
  fork : ∀ p q b, e = .fork p (-1) → s.ctl p = .at (.forking q b) → (s.table q).killed = false

/-- **Whoever is marked is a process that somebody has killed.** -/
def Marked (s : State n) : Prop :=
  ∀ q, (s.table q).killed = true → (s.table q).state ≠ .unused ∧ s.hit q = true

namespace Marked

theorem of_start (h : Start s) : Marked s := fun q hq => by
  rw [h.table, field_update Entry.killed (by rfl) q] at hq
  exact nomatch hq

/-- Nobody is marked, and nobody marked is freed or forgotten. -/
theorem of_le (h : Marked s) (hkilled : ∀ q, (s'.table q).killed = true → (s.table q).killed = true)
    (hused : ∀ q, (s.table q).killed = true → (s.table q).state ≠ .unused → (s'.table q).state ≠ .unused)
    (hhit : ∀ q, (s.table q).killed = true → s.hit q = true → s'.hit q = true) : Marked s' := fun q hq =>
  have hk := hkilled q hq
  ⟨hused q hk (h q hk).1, hhit q hk (h q hk).2⟩

theorem calm (h : Marked s) (hc : Calm s s') : Marked s' :=
  h.of_le (fun q => by rw [hc.killed]; exact id) (fun _ _ hs hs' => hs (hc.toKin.unused_iff.mp hs'))
    fun _ _ hq => by rw [hc.hit]; exact hq

/-- One slot is written, and keeps its mark or loses it. -/
theorem put (h : Marked s) {x : Entry} (htable : s'.table = update s.table q x)
    (hx : x.killed = true → (s.table q).killed = true ∧ x.state ≠ .unused)
    (hhit : ∀ r, (s.table r).killed = true → s.hit r = true → s'.hit r = true) : Marked s' := fun r hr => by
  by_cases hrq : r = q
  · rw [hrq, htable, update_self] at hr ⊢
    obtain ⟨hk, hs⟩ := hx hr
    exact ⟨hs, hhit q hk (h q hk).2⟩
  · rw [htable, update_of_ne hrq] at hr ⊢
    exact ⟨(h r hr).1, hhit r hr (h r hr).2⟩

/-- `kill` strikes a process. -/
theorem strike (h : Marked s) (hn : Named s.table pid) (htable : s'.table = (kill s.table pid).2)
    (hhit : ∀ q, s'.hit q = (s.hit q || decide ((s.table q).pid = pid))) : Marked s' := fun q hq => by
  have hold : s.hit q = true → s'.hit q = true := fun hh => by rw [hhit, hh, Bool.true_or]
  cases hf : firstPid s.table pid with
  | none =>
    have hsame : s'.table = s.table := by rw [htable, kill_of_none hf]
    rw [hsame] at hq ⊢
    exact ⟨(h q hq).1, hold (h q hq).2⟩
  | some r =>
    have hstruck : s'.table = update s.table r (s.table r).struck := by
      rw [htable, kill_of_firstPid hf]
    by_cases hqr : q = r
    · rw [hqr, hstruck, update_self, hhit, decide_eq_true (firstPid_spec hf), Bool.or_true]
      refine ⟨fun hs => ?_, rfl⟩
      rw [Entry.struck] at hs
      split at hs
      · exact nomatch hs
      · exact hn r hf hs
    · rw [hstruck, update_of_ne hqr] at hq ⊢
      exact ⟨(h q hq).1, hold (h q hq).2⟩

/-- **Every step taken with care keeps the marks.** -/
theorem step (h : Marked s) (hp : Placed s) (hstep : Step s e s') (hc : Careful s e) : Marked s' := by
  by_cases he : e.Plain
  · exact h.calm (hstep.calm hp he)
  cases hstep with
  | kill pid hr hlock => exact h.strike (hc.kill _ pid _ rfl) rfl fun _ => rfl
  | shareMem hr | link hr => exact h.put rfl (fun hk => ⟨hk, (h _ hk).1⟩) fun _ _ => id
  | @exit c p hr hlock hinit =>
    have hx := exits_exitTable s.table p
    refine h.of_le (fun q => (hx.killed q).symm ▸ id) (fun q _ hs hs' => ?_) fun _ _ => id
    by_cases hqp : q = p
    · rw [hqp] at hs'
      exact nomatch hx.self.symm.trans hs'
    · rcases hx.other q hqp with hq | ⟨-, hq⟩
      · exact hs (hq.symm.trans hs')
      · exact nomatch hq.symm.trans hs'
  | reap => exact h.put rfl nofun fun _ _ => id
  | doze | fork hr => exact h.put rfl (fun hk => ⟨hk, nofun⟩) fun _ _ => id
  | full => exact h
  | @alloc c p q hr hlock hq =>
    -- the slot was free, so it bears no mark
    have hfree : (s.table q).killed ≠ true := fun hk => (h q hk).1 (firstUnused_spec hq)
    refine h.put rfl (fun hk => absurd hk hfree) fun r hr hh => ?_
    have hrq : r ≠ q := fun he => hfree (he ▸ hr)
    exact (update_of_ne hrq _ _).trans hh
  | @fail c p q hr | @crowded c p q hr =>
    have hfree := hc.fork p q _ rfl hr.ctl
    exact h.put rfl (fun hk => nomatch hfree.symm.trans hk) fun _ _ => id
  | _ => exact absurd trivial he

end Marked

end Xv6.Sched
