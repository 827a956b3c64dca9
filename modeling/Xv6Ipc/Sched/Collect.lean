import Xv6Ipc.Sched.Family

/-!
# Sched/Collect — every child is collected once

`allocproc` numbers the processes one after the other, and the number that `wait` returns is never
given again before the counter, an `int`, has gone all the way round:

    nextpid = m   ──alloc q──▸   q : m     nextpid = m + 1
                  ──reap q───▸   m is gone

So the numbers of the processes there are and the numbers `wait` has returned are all different.
-/

namespace Xv6.Sched

open Runs Function

variable {n : Nat} {s s' s₀ : State n} {e : Event} {es : List Event} {c : Fin n} {p q r : Slot}
  {num : Slot → Nat} {gone : List Nat}

/-! ## Families, along a run -/

/-- Where every process is and whose child, in every state reached. -/
theorem family_of_reach (h : Reach Start Step s) : Family s :=
  (h.keeps (P := fun s => Placed s ∧ Family s) (fun _ h => ⟨.of_start h, .of_start h⟩)
    fun _ _ _ h hstep => ⟨h.1.step hstep, h.2.step h.1 hstep⟩).2

/-! ## Numbers -/

/-- The number that a call of `wait` returns. -/
def Event.collected : Event → Option Int
  | .reap _ _ pid => some pid
  | _ => none

/-- A call of `fork` takes a slot, and a number. -/
def Event.allocates : Event → Bool
  | .alloc _ _ => true
  | _ => false

/-- **The processes are numbered**, and `gone` are the numbers that `wait` has returned. -/
structure Numbered (s : State n) (num : Slot → Nat) (gone : List Nat) : Prop where
  pid : ∀ q, (s.table q).state ≠ .unused → (s.table q).pid = pidOf (num q)
  lt : ∀ q, (s.table q).state ≠ .unused → num q < s.nextpid
  inj : ∀ q r, (s.table q).state ≠ .unused → (s.table r).state ≠ .unused → num q = num r → q = r
  fresh : ∀ q, (s.table q).state ≠ .unused → num q ∉ gone
  gone_lt : ∀ m ∈ gone, m < s.nextpid
  nodup : gone.Nodup

/-- The processes of `s'` are processes of `s`, under the same numbers. -/
structure Fewer (s s' : State n) : Prop where
  used : ∀ q, (s'.table q).state ≠ .unused → (s.table q).state ≠ .unused
  pid : ∀ q, (s'.table q).pid = (s.table q).pid
  nextpid : s'.nextpid = s.nextpid

theorem Kin.fewer (h : Kin s s') : Fewer s s' :=
  ⟨fun _ hq hs => hq (h.unused_iff.mpr hs), h.pid, h.nextpid⟩

/-- One slot is written, and keeps its number. -/
theorem Fewer.of_put {x : Entry} (htable : s'.table = update s.table q x)
    (hx : x.state ≠ .unused → (s.table q).state ≠ .unused) (hpid : x.pid = (s.table q).pid)
    (hnextpid : s'.nextpid = s.nextpid) : Fewer s s' := by
  refine ⟨fun r hr => ?_, fun r => ?_, hnextpid⟩
  · by_cases hrq : r = q
    · rw [htable, hrq, update_self] at hr
      exact hrq ▸ hx hr
    · rw [htable, update_of_ne hrq] at hr
      exact hr
  · rw [htable]
    exact field_update Entry.pid hpid r

theorem Exits.fewer (h : Exits s.table s'.table p) (hp : (s.table p).state ≠ .unused)
    (hnextpid : s'.nextpid = s.nextpid) : Fewer s s' := by
  refine ⟨fun q hq hs => ?_, h.pid, hnextpid⟩
  by_cases hqp : q = p
  · exact hp (hqp ▸ hs)
  · rcases h.other q hqp with hq' | ⟨hq', -⟩
    · exact hq (hq'.trans hs)
    · exact nomatch hs.symm.trans hq'

/-- **No number is given or returned but by `allocproc` and `wait`.** -/
theorem Step.fewer (hstep : Step s e s') (h : Placed s) (ha : e.allocates = false)
    (hc : e.collected = none) : Fewer s s' := by
  by_cases he : e.Plain ∨ (∃ p pid r, e = .kill p pid r) ∨ (∃ p, e = .shareMem p)
  · exact (hstep.kin h he).fewer
  cases hstep with
  | exit hr =>
    refine (exits_exitTable s.table _).fewer (fun hs => ?_) rfl
    rcases h.alive hr with hp | hp | hp <;> exact nomatch hs.symm.trans hp
  | doze hpc hk =>
    have hrun := (h.scans hpc hk).1
    exact .of_put rfl (fun _ hs => nomatch hs.symm.trans hrun) rfl rfl
  | full => exact ⟨fun _ => id, fun _ => rfl, rfl⟩
  | fail | crowded => exact .of_put rfl (fun hx => absurd rfl hx) rfl rfl
  | link | fork =>
    have hembryo := (h.forking ‹_›).1
    exact .of_put rfl (fun _ hs => nomatch hs.symm.trans hembryo) rfl rfl
  | reap => exact nomatch hc
  | alloc => exact nomatch ha
  | kill => exact absurd (.inr (.inl ⟨_, _, _, rfl⟩)) he
  | shareMem => exact absurd (.inr (.inr ⟨_, rfl⟩)) he
  | _ => exact absurd (.inl trivial) he

namespace Numbered

theorem of_start (h : Start s) : Numbered s (fun _ => 1) [] := by
  have hused : ∀ q, (s.table q).state ≠ .unused → q = initproc := fun q hq => by
    by_contra hqi
    rw [h.table, update_of_ne hqi] at hq
    exact hq rfl
  refine ⟨fun q hq => ?_, fun q hq => ?_, fun q r hq hr _ => (hused q hq).trans (hused r hr).symm,
    fun _ _ => List.not_mem_nil, fun m hm => absurd hm List.not_mem_nil, .nil⟩
  · rw [hused q hq, h.table, update_self]
    rfl
  · rw [h.nextpid]
    exact Nat.lt_succ_self 1

theorem of_fewer (h : Numbered s num gone) (hf : Fewer s s') : Numbered s' num gone where
  pid q hq := (hf.pid q).trans (h.pid q (hf.used q hq))
  lt q hq := hf.nextpid ▸ h.lt q (hf.used q hq)
  inj q r hq hr := h.inj q r (hf.used q hq) (hf.used r hr)
  fresh q hq := h.fresh q (hf.used q hq)
  gone_lt m hm := hf.nextpid ▸ h.gone_lt m hm
  nodup := h.nodup

/-- A slot is taken, and given the next number. -/
theorem alloc (h : Numbered s num gone) {x : Entry} (htable : s'.table = update s.table q x)
    (hpid : x.pid = pidOf s.nextpid) (hnextpid : s'.nextpid = s.nextpid + 1) :
    Numbered s' (update num q s.nextpid) gone := by
  have hother : ∀ {r}, r ≠ q → s'.table r = s.table r := fun hr => by
    rw [htable, update_of_ne hr]
  -- a process that was there has a smaller number than the new one
  have hlt : ∀ {r}, r ≠ q → (s'.table r).state ≠ .unused → num r < s.nextpid := fun {r} hr hs => by
    rw [hother hr] at hs
    exact h.lt r hs
  refine ⟨fun r hs => ?_, fun r hs => ?_, fun r t hs ht heq => ?_, fun r hs => ?_, fun m hm => ?_, h.nodup⟩
  · by_cases hr : r = q
    · rw [hr, htable, update_self, update_self, hpid]
    · rw [hother hr] at hs ⊢
      rw [update_of_ne hr]
      exact h.pid r hs
  · rw [hnextpid]
    by_cases hr : r = q
    · rw [hr, update_self]
      exact Nat.lt_succ_self _
    · rw [update_of_ne hr]
      exact Nat.lt_succ_of_lt (hlt hr hs)
  · by_cases hr : r = q <;> by_cases ht' : t = q
    · exact hr.trans ht'.symm
    · rw [hr, update_self, update_of_ne ht'] at heq
      exact absurd heq.symm (Nat.ne_of_lt (hlt ht' ht))
    · rw [ht', update_self, update_of_ne hr] at heq
      exact absurd heq (Nat.ne_of_lt (hlt hr hs))
    · rw [update_of_ne hr, update_of_ne ht'] at heq
      rw [hother hr] at hs
      rw [hother ht'] at ht
      exact h.inj r t hs ht heq
  · by_cases hr : r = q
    · rw [hr, update_self]
      exact fun hm => Nat.lt_irrefl _ (h.gone_lt _ hm)
    · rw [hother hr] at hs
      rw [update_of_ne hr]
      exact h.fresh r hs
  · rw [hnextpid]
    exact Nat.lt_succ_of_lt (h.gone_lt m hm)

/-- A process is freed, and its number returned. -/
theorem reap (h : Numbered s num gone) (hq : (s.table q).state ≠ .unused)
    (htable : s'.table = update s.table q (s.table q).reaped)
    (hnextpid : s'.nextpid = s.nextpid) : Numbered s' num (gone ++ [num q]) := by
  have hne : ∀ {r}, (s'.table r).state ≠ .unused → r ≠ q := fun hr he => by
    rw [htable, he, update_self] at hr
    exact hr rfl
  have hother : ∀ {r}, r ≠ q → s'.table r = s.table r := fun hr => by
    rw [htable, update_of_ne hr]
  have hused : ∀ {r}, (s'.table r).state ≠ .unused → (s.table r).state ≠ .unused := fun hr => by
    rw [← hother (hne hr)]
    exact hr
  refine ⟨fun r hr => ?_, fun r hr => ?_, fun r t hr ht => h.inj r t (hused hr) (hused ht), fun r hr hm => ?_,
    fun m hm => ?_, ?_⟩
  · rw [hother (hne hr)]
    exact h.pid r (hused hr)
  · rw [hnextpid]
    exact h.lt r (hused hr)
  · rcases List.mem_append.mp hm with hm | hm
    · exact h.fresh r (hused hr) hm
    · exact hne hr (h.inj r q (hused hr) hq (List.mem_singleton.mp hm))
  · rw [hnextpid]
    rcases List.mem_append.mp hm with hm | hm
    · exact h.gone_lt m hm
    · rw [List.mem_singleton.mp hm]
      exact h.lt q hq
  · refine List.nodup_append.mpr ⟨h.nodup, List.nodup_singleton _, fun m hm k hk he => ?_⟩
    rw [he, List.mem_singleton.mp hk] at hm
    exact h.fresh q hq hm

end Numbered

/-- **The numbers, along a run.** -/
theorem numbered_of_trace (h₀ : Start s₀) (h : Trace Step s₀ es s) :
    ∃ num gone, Numbered s num gone ∧ gone.map pidOf = es.filterMap Event.collected
      ∧ s.nextpid = 2 + es.countP Event.allocates := by
  induction h with
  | nil => exact ⟨_, _, .of_start h₀, rfl, h₀.nextpid⟩
  | @snoc t u es e ht hstep ih =>
    obtain ⟨num, gone, hnum, hgone, hnext⟩ := ih
    have hp := placed_of_reach ((Reach.init h₀).trace ht)
    rw [List.filterMap_append, List.countP_append, ← Nat.add_assoc, ← hnext, ← hgone]
    by_cases hother : e.allocates = false ∧ e.collected = none
    · have hf := hstep.fewer hp hother.1 hother.2
      refine ⟨num, gone, hnum.of_fewer hf, ?_, ?_⟩
      · rw [List.filterMap_cons_none hother.2]
        exact (List.append_nil _).symm
      · rw [List.countP_singleton, hother.1]
        exact hf.nextpid
    cases hstep with
    | alloc => exact ⟨_, _, hnum.alloc rfl rfl rfl, (List.append_nil _).symm, rfl⟩
    | @reap c p q hpc hk hq =>
      have hused : (t.table q).state ≠ .unused := fun hs => nomatch hs.symm.trans (zombieOf_spec hq).2
      refine ⟨num, gone ++ [num q], hnum.reap hused rfl rfl, ?_, rfl⟩
      rw [List.map_append, List.map_singleton, ← hnum.pid q hused]
      rfl
    | _ => exact absurd ⟨rfl, rfl⟩ hother

/-- An `int` counter takes every value once in its first 2³² steps. -/
theorem pidOf_inj {a b : Nat} (ha : a < 0x100000000) (hb : b < 0x100000000) (h : pidOf a = pidOf b) :
    a = b := by
  rw [pidOf, pidOf, Nat.mod_eq_of_lt ha, Nat.mod_eq_of_lt hb, i32, i32] at h
  split_ifs at h <;> omega

/-! ## Once -/

/-- Nobody else has the number of a process, up to 2³² numbers. -/
theorem Numbered.pid_inj (h : Numbered s num gone) (hnext : s.nextpid ≤ 0x100000000)
    (hq : (s.table q).state ≠ .unused) (hr : (s.table r).state ≠ .unused)
    (hpid : (s.table q).pid = (s.table r).pid) : q = r := by
  rw [h.pid q hq, h.pid r hr] at hpid
  exact h.inj q r hq hr (pidOf_inj (Nat.lt_of_lt_of_le (h.lt q hq) hnext)
    (Nat.lt_of_lt_of_le (h.lt r hr) hnext) hpid)

/-- No number is returned twice, up to 2³² numbers. -/
theorem Numbered.gone_nodup (h : Numbered s num gone) (hnext : s.nextpid ≤ 0x100000000) :
    (gone.map pidOf).Nodup :=
  h.nodup.map_on fun a ha b hb hab => pidOf_inj (Nat.lt_of_lt_of_le (h.gone_lt a ha) hnext)
    (Nat.lt_of_lt_of_le (h.gone_lt b hb) hnext) hab

/-- What a call of `wait` that returns a number has found. -/
structure Collects (s : State n) (p q : Slot) (ret : Int) : Prop where
  pid : (s.table q).pid = ret
  zombie : (s.table q).state = .zombie
  parent : (s.table q).parent = some p
  only : ∀ r, (s.table r).state ≠ .unused → (s.table r).pid = ret → r = q

/-- **Exited children are collected exactly once.**  Along every run, in every state: a process other than
the first, or what is left of one, has a parent that is alive, and nobody sleeps in `wait` who has a zombie
child.  With fewer than 2³¹ calls of `fork` that get a number, no number is returned by two calls of
`wait`, and the one that returns it is made by the parent of the only process that has it. -/
theorem children_collected_once (h₀ : Start s₀) (h : Trace Step s₀ es s) :
    (∀ q, q ≠ initproc → (s.table q).Known → ∃ p, (s.table q).parent = some p
      ∧ (s.table p).state ≠ .unused ∧ (s.table p).state ≠ .zombie)
    ∧ (∀ p q, Waits s p → (s.table q).parent = some p → (s.table q).state ≠ .zombie)
    ∧ (es.countP Event.allocates < 2 ^ 31 → (es.filterMap Event.collected).Nodup
      ∧ ∀ p q pid s', Step s (.reap p q pid) s' → Collects s p q pid) := by
  have hfam := family_of_reach ((Reach.init h₀).trace h)
  obtain ⟨num, gone, hnum, hgone, hnext⟩ := numbered_of_trace h₀ h
  refine ⟨fun q hq hk => ?_, fun p q hw hq => (hfam.waits p hw).2 q hq, fun hforks => ?_⟩
  · obtain ⟨p, hp, hal⟩ := hfam.parent q hq hk
    refine ⟨p, hp, fun hs => ?_, fun hs => ?_⟩ <;>
      rcases hal with hal | hal | hal <;> exact nomatch hs.symm.trans hal
  · have hbound : s.nextpid ≤ 0x100000000 := by omega
    refine ⟨hgone ▸ hnum.gone_nodup hbound, fun p q pid s' hstep => ?_⟩
    cases hstep with
    | reap hpc hk hq =>
      obtain ⟨hparent, hzombie⟩ := zombieOf_spec hq
      have hused : (s.table q).state ≠ .unused := fun hs => nomatch hs.symm.trans hzombie
      exact ⟨rfl, hzombie, hparent, fun r hr hpid => hnum.pid_inj hbound hr hused hpid⟩

/-! ### A call of `fork`, from end to end -/

/-- What a successful call of `fork` makes of the state, taking slot `q`. -/
def State.forkInto (s : State n) (p q : Slot) : State n where
  table := update s.table q { s.table q with
    state := .runnable, pid := pidOf s.nextpid, parent := some p, regions := (s.table p).regions }
  ctl := update (update s.ctl q (.out .enter)) p (.at .run)
  cpu := s.cpu
  lock := s.lock
  nextpid := s.nextpid + 1
  kids := update (update s.kids q []) p (q :: update s.kids q [] p)
  hit := update s.hit q false

/-- Nobody else has to take a step in between. -/
theorem trace_forkInto (hr : s.Runs c p .run) (hlock : s.lock = none) (hq : firstUnused s.table = some q)
    (hqp : q ≠ p) (hregions : (s.table p).regions < MAXSHARED) :
    Trace Step s [.alloc p q, .link p q, .fork p (pidOf s.nextpid)] (s.forkInto p q) := by
  have h₁ := (Trace.nil s).snoc (Step.alloc hr hlock hq)
  have h₂ := h₁.snoc (Step.link (c := c) (p := p) (q := q) ⟨hr.pc, by simp⟩)
  have h₃ := h₂.snoc (Step.fork (c := c) (p := p) (q := q) ⟨hr.pc, by simp⟩ hlock
    (by simpa [hqp.symm] using hregions))
  have hctl : ∀ a, update (update s.ctl p a) q (.out .enter)
      = update (update s.ctl q (.out .enter)) p a := fun a =>
    update_comm hqp.symm _ _ _
  simpa [State.forkInto, State.put, State.goto, hqp.symm, hctl] using h₃

/-- The slot that the first `fork` takes. -/
def firstborn : Slot := ⟨1, by decide⟩

/-- The first process has forked, on processor `c`. -/
def forked (c : Fin n) : State n := (running c).forkInto initproc firstborn

theorem trace_forked (c : Fin n) : Trace Step (booted n) ([.sched, .sched, .land initproc]
    ++ [.alloc initproc firstborn, .link initproc firstborn, .fork initproc (pidOf 2)]) (forked c) :=
  (trace_running c).append (trace_forkInto (c := c) ⟨by simp [running], rfl⟩ rfl (by rfl) (by decide)
    (Nat.zero_lt_succ _))

/-- The first process has forked a child, whose parent is still there. -/
theorem children_collected_once_forked :
    (∃ p, ((forked (0 : Fin 1)).table firstborn).parent = some p
      ∧ ((forked (0 : Fin 1)).table p).state ≠ .unused ∧ ((forked (0 : Fin 1)).table p).state ≠ .zombie)
    ∧ ∀ p q pid s', Step (forked (0 : Fin 1)) (.reap p q pid) s' → Collects (forked (0 : Fin 1)) p q pid := by
  have h := children_collected_once (start_booted 1) (trace_forked (0 : Fin 1))
  exact ⟨h.1 firstborn (by decide) (.inl (.inr (.inl rfl))), (h.2.2 (by decide)).2⟩

end Xv6.Sched
