import Xv6Ipc.Sched.Cpus

/-!
# Sched/Family — parents, children and `wait`

Every process but the first has a parent that can still wait for it: `exit` gives the children of the
process that leaves to the first one, in the same critical section in which that process becomes a
`ZOMBIE`.

    fork     q ∈ EMBRYO   parent := p       exit     parent = p  ─▸  parent := initproc
    wait     q ∈ ZOMBIE, parent = p  ─▸  UNUSED

Most steps leave all this alone (`Calm`); each of the others is looked at once.
-/

namespace Xv6.Sched

open Runs Function

variable {n : Nat} {s s' : State n} {e : Event} {c c' : Fin n} {p q r : Slot} {k : Cont} {l : Loc}
  {T T' : Table}

/-! ## Steps that change no family -/

/-- A process that may still run. -/
def Entry.Alive (e : Entry) : Prop := e.state = .sleeping ∨ e.state = .runnable ∨ e.state = .running

/-- A process asleep in `wait`. -/
def Waits (s : State n) (p : Slot) : Prop :=
  (s.table p).state = .sleeping ∧ (s.ctl p = .leave .waited ∨ s.ctl p = .out .waited)

/-- The events of steps that only move processes between processors and queues. -/
def Event.Plain : Event → Prop
  | .sched | .land _ | .yield _ | .sleep _ | .wakeup | .wait _ | .nokids _ => True
  | _ => False

/-- **Nobody is born, dies or falls asleep in `wait`.** -/
structure Kin (s s' : State n) : Prop where
  alive : ∀ q, (s'.table q).Alive ↔ (s.table q).Alive
  state : ∀ q, ¬ (s.table q).Alive → (s'.table q).state = (s.table q).state
  parent : ∀ q, (s'.table q).parent = (s.table q).parent
  pid : ∀ q, (s'.table q).pid = (s.table q).pid
  forks : ∀ q, (s'.ctl q).forks = (s.ctl q).forks
  waits : ∀ q, Waits s' q → Waits s q ∧ (s'.table q).chan = (s.table q).chan
  nextpid : s'.nextpid = s.nextpid
  kids : s'.kids = s.kids

/-- …and nobody is killed or shares a region. -/
structure Calm (s s' : State n) : Prop extends Kin s s' where
  killed : ∀ q, (s'.table q).killed = (s.table q).killed
  regions : ∀ q, (s'.table q).regions = (s.table q).regions
  hit : s'.hit = s.hit

/-- Whoever is asleep in `wait` when somebody else has moved, was. -/
theorem waited_goto {y : Ctl} (hy : y ≠ .leave .waited ∧ y ≠ .out .waited)
    (hr : (s.goto p y).ctl r = .leave .waited ∨ (s.goto p y).ctl r = .out .waited) :
    (s.goto p y).ctl r = s.ctl r := by
  by_cases hrp : r = p
  · rw [hrp, State.goto_ctl, update_self] at hr
    exact absurd hr (not_or.mpr hy)
  · rw [State.goto_ctl, update_of_ne hrp]

/-- Whoever is in `fork` when somebody has left it, was, and is somebody else. -/
theorem forks_goto {y : Ctl} (hy : y.forks = none) (hctl : s'.ctl = update s.ctl p y)
    {z : Slot × Bool} (hf : (s'.ctl r).forks = some z) : r ≠ p ∧ (s.ctl r).forks = some z := by
  by_cases hrp : r = p
  · rw [hrp, hctl, update_self, hy] at hf
    exact nomatch hf
  · rw [hctl, update_of_ne hrp] at hf
    exact ⟨hrp, hf⟩

/-- All fields but the state and the parent. -/
structure SameFields (T T' : Table) (q : Slot) : Prop where
  pid : (T' q).pid = (T q).pid
  chan : (T' q).chan = (T q).chan
  killed : (T' q).killed = (T q).killed
  regions : (T' q).regions = (T q).regions

theorem SameFields.refl (T : Table) (q : Slot) : SameFields T T q := ⟨rfl, rfl, rfl, rfl⟩

theorem SameFields.trans {T'' : Table} (h : SameFields T T' q) (h' : SameFields T' T'' q) :
    SameFields T T'' q :=
  ⟨h'.pid.trans h.pid, h'.chan.trans h.chan, h'.killed.trans h.killed, h'.regions.trans h.regions⟩

theorem sameFields_wakeup1 (T : Table) (chan : Chan) (q : Slot) : SameFields T (wakeup1 T chan) q
    ∧ (wakeup1 T chan q).parent = (T q).parent := by
  have hcase : wakeup1 T chan q = T q ∨ wakeup1 T chan q = { T q with state := .runnable } := by
    rw [wakeup1]
    split
    · exact .inr rfl
    · exact .inl rfl
  rcases hcase with h | h <;> exact ⟨⟨by rw [h], by rw [h], by rw [h], by rw [h]⟩, by rw [h]⟩

theorem Entry.Alive.of_running {x : Entry} (h : x.state = .running) : x.Alive := .inr (.inr h)

theorem Kin.state_iff (h : Kin s s') {t : ProcState} (ht : t ≠ .sleeping ∧ t ≠ .runnable ∧ t ≠ .running) :
    (s'.table q).state = t ↔ (s.table q).state = t := by
  have hdead : ∀ {x : Entry}, x.state = t → ¬ x.Alive := fun hx hal => by
    rcases hal with hal | hal | hal <;> rw [hx] at hal
    · exact ht.1 hal
    · exact ht.2.1 hal
    · exact ht.2.2 hal
  constructor
  · intro hq
    rw [← h.state q (mt (h.alive q).mpr (hdead hq))]
    exact hq
  · intro hq
    rw [h.state q (hdead hq)]
    exact hq

theorem Kin.zombie_iff (h : Kin s s') : (s'.table q).state = .zombie ↔ (s.table q).state = .zombie :=
  h.state_iff ⟨nofun, nofun, nofun⟩

theorem Kin.unused_iff (h : Kin s s') : (s'.table q).state = .unused ↔ (s.table q).state = .unused :=
  h.state_iff ⟨nofun, nofun, nofun⟩

/-- Sleepers are woken. -/
theorem Kin.of_stir (hstir : Stirred s.table s'.table)
    (hparent : ∀ q, (s'.table q).parent = (s.table q).parent)
    (hpid : ∀ q, (s'.table q).pid = (s.table q).pid) (hchan : ∀ q, (s'.table q).chan = (s.table q).chan)
    (hctl : s'.ctl = s.ctl) (hnextpid : s'.nextpid = s.nextpid) (hkids : s'.kids = s.kids) : Kin s s' := by
  refine ⟨fun q => ?_, fun q hq => ?_, hparent, hpid, fun q => by rw [hctl],
    fun q hq => ⟨⟨?_, hctl ▸ hq.2⟩, hchan q⟩, hnextpid, hkids⟩ <;> rcases hstir q with h | ⟨h, h'⟩
  · rw [Entry.Alive, Entry.Alive, h]
  · exact iff_of_true (.inr (.inl h')) (.inl h)
  · exact h
  · exact absurd (.inl h) hq
  · exact h.symm.trans hq.1
  · exact h

namespace Calm

/-- One process changes, and stays alive. -/
theorem of_self {x : Entry} {y : Ctl} (htable : s'.table = update s.table p x)
    (hctl : s'.ctl = update s.ctl p y) (hal : (s.table p).Alive) (hx : x.Alive)
    (hparent : x.parent = (s.table p).parent) (hpid : x.pid = (s.table p).pid)
    (hkilled : x.killed = (s.table p).killed) (hregions : x.regions = (s.table p).regions)
    (hforks : y.forks = (s.ctl p).forks) (hwaits : x.state = .sleeping →
      (y = .leave .waited ∨ y = .out .waited) → Waits s p ∧ x.chan = (s.table p).chan)
    (hnextpid : s'.nextpid = s.nextpid) (hkids : s'.kids = s.kids) (hhit : s'.hit = s.hit) :
    Calm s s' := by
  refine ⟨⟨fun q => ?_, fun q hq => ?_, fun q => ?_, fun q => ?_, fun q => ?_, fun q hq => ?_, hnextpid,
    hkids⟩, fun q => ?_, fun q => ?_, hhit⟩
  · rw [htable, field_update Entry.Alive (propext (iff_of_true hx hal))]
  · have hqp : q ≠ p := fun he => hq (he ▸ hal)
    rw [htable, update_of_ne hqp]
  · rw [htable, field_update Entry.parent hparent]
  · rw [htable, field_update Entry.pid hpid]
  · rw [hctl, field_update Ctl.forks hforks]
  · by_cases hqp : q = p
    · rw [hqp, Waits, htable, hctl, update_self, update_self] at hq
      rw [hqp, htable, update_self]
      exact hwaits hq.1 hq.2
    · rw [Waits, htable, hctl, update_of_ne hqp, update_of_ne hqp] at hq
      exact ⟨hq, by rw [htable, update_of_ne hqp]⟩
  · rw [htable, field_update Entry.killed hkilled]
  · rw [htable, field_update Entry.regions hregions]

/-- The table stays, and one process moves. -/
theorem of_goto {y : Ctl} (htable : s'.table = s.table) (hctl : s'.ctl = update s.ctl p y)
    (hforks : y.forks = (s.ctl p).forks)
    (hwaits : (s.table p).state = .sleeping → (y = .leave .waited ∨ y = .out .waited) → Waits s p)
    (hnextpid : s'.nextpid = s.nextpid) (hkids : s'.kids = s.kids) (hhit : s'.hit = s.hit) :
    Calm s s' := by
  refine ⟨⟨fun q => by rw [htable], fun q _ => by rw [htable], fun q => by rw [htable],
    fun q => by rw [htable], fun q => by rw [hctl, field_update Ctl.forks hforks],
    fun q hq => ⟨?_, by rw [htable]⟩, hnextpid, hkids⟩, fun q => by rw [htable],
    fun q => by rw [htable], hhit⟩
  by_cases hqp : q = p
  · rw [hqp, Waits, htable, hctl, update_self] at hq
    exact hqp ▸ hwaits hq.1 hq.2
  · rw [Waits, htable, hctl, update_of_ne hqp] at hq
    exact hq

/-- Nothing changes but where processors are. -/
theorem of_same (htable : s'.table = s.table) (hctl : s'.ctl = s.ctl) (hnextpid : s'.nextpid = s.nextpid)
    (hkids : s'.kids = s.kids) (hhit : s'.hit = s.hit) : Calm s s' :=
  of_goto (p := initproc) htable (hctl.trans (update_eq_self initproc s.ctl).symm) rfl
    (fun hs hy => ⟨hs, hy⟩) hnextpid hkids hhit

theorem of_wakeup1 (chan : Chan) : Calm s { s with table := wakeup1 s.table chan } := by
  have hsame := sameFields_wakeup1 s.table chan
  have hstir := stirred_wakeup1 s.table chan
  exact ⟨.of_stir hstir (fun q => (hsame q).2) (fun q => (hsame q).1.pid) (fun q => (hsame q).1.chan) rfl
    rfl rfl, fun q => (hsame q).1.killed, fun q => (hsame q).1.regions, rfl⟩

end Calm

theorem Placed.alive (h : Placed s) (hr : s.Runs c p l) : (s.table p).Alive := .of_running (h.runs hr).1

/-- **Plain steps are calm.** -/
theorem Step.calm (hstep : Step s e s') (h : Placed s) (he : e.Plain) : Calm s s' := by
  cases hstep with
  | acquire | skip | release | kvm => exact .of_same rfl rfl rfl rfl rfl
  | pick hi hpc hrun =>
    obtain ⟨⟨k, hk⟩, -⟩ := h.runnable hpc hrun
    exact .of_self rfl rfl (.inr (.inl hrun)) (.inr (.inr rfl)) rfl rfl rfl rfl
      (by simp [hk, Ctl.restore, Ctl.forks]) (by rintro ⟨⟩) rfl rfl rfl
  | swtch hpc hk =>
    refine .of_goto rfl rfl (by simp [hk, Ctl.forks]) (fun hs hy => ⟨hs, .inl ?_⟩) rfl rfl rfl
    rcases hy with hy | hy
    · cases hy
    · rw [hk, Ctl.out.inj hy]
  | forkret hpc hk =>
    exact .of_goto rfl rfl (by simp [hk, Ctl.forks, Cont.forks, Loc.forks]) (fun _ hy => by simp at hy) rfl rfl rfl
  | yielded hpc hk =>
    exact .of_goto rfl rfl (by simp [hk, Ctl.forks, Cont.forks]) (fun _ hy => by simp at hy) rfl rfl rfl
  | slept hpc hk =>
    exact .of_self rfl rfl (.of_running (h.lands hpc hk).1) (.of_running (h.lands hpc hk).1) rfl rfl rfl rfl
      (by simp [hk, Ctl.forks, Cont.forks, Loc.forks]) (fun _ hy => by simp at hy) rfl rfl rfl
  | waited hpc hk =>
    exact .of_self rfl rfl (.of_running (h.lands hpc hk).1) (.of_running (h.lands hpc hk).1) rfl rfl rfl rfl
      (by simp [hk, Ctl.forks, Cont.forks]) (fun _ hy => by simp at hy) rfl rfl rfl
  | yield hr =>
    exact .of_self rfl rfl (h.alive hr) (.inr (.inl rfl)) rfl rfl rfl rfl
      (by simp [hr.ctl, Ctl.forks, Cont.forks]) (by rintro ⟨⟩) rfl rfl rfl
  | sleep a hr =>
    exact .of_self rfl rfl (h.alive hr) (.inl rfl) rfl rfl rfl rfl
      (by simp [hr.ctl, Ctl.forks, Cont.forks, Loc.forks]) (fun _ hy => by simp at hy) rfl rfl rfl
  | wait hr =>
    exact .of_goto rfl rfl (by simp [hr.ctl, Ctl.forks, Loc.forks]) (fun _ hy => by simp at hy) rfl rfl rfl
  | nokids hpc hk =>
    exact .of_goto rfl rfl (by simp [hk, Ctl.forks, Loc.forks]) (fun _ hy => by simp at hy) rfl rfl rfl
  | wakeup a => exact .of_wakeup1 _
  | _ => exact absurd he id

/-! ## What `kill` and `exit` do -/

/-- `kill` marks a process, and wakes it. -/
theorem kill_fields (T : Table) (pid : Int) (q : Slot) : ((kill T pid).2 q).parent = (T q).parent
    ∧ ((kill T pid).2 q).pid = (T q).pid ∧ ((kill T pid).2 q).chan = (T q).chan
    ∧ ((kill T pid).2 q).regions = (T q).regions := by
  rw [kill]
  split
  · exact ⟨rfl, rfl, rfl, rfl⟩
  · rename_i r hr
    by_cases hq : q = r
    · subst hq
      simp
    · simp [update_of_ne hq]

theorem Step.kin (hstep : Step s e s') (h : Placed s)
    (he : e.Plain ∨ (∃ p pid r, e = .kill p pid r) ∨ (∃ p, e = .shareMem p)) : Kin s s' := by
  rcases he with he | ⟨p, pid, r, rfl⟩ | ⟨p, rfl⟩
  · exact (hstep.calm h he).toKin
  · cases hstep with
    | kill =>
      have hf := kill_fields s.table pid
      exact .of_stir (stirred_kill _ _) (fun q => (hf q).1) (fun q => (hf q).2.1) (fun q => (hf q).2.2.1)
        rfl rfl rfl
  · cases hstep with
    | shareMem =>
      exact .of_stir (fun q => .inl (field_update Entry.state (by rfl) q)) (field_update Entry.parent (by rfl))
        (field_update Entry.pid (by rfl)) (field_update Entry.chan (by rfl)) rfl rfl rfl

/-- **What `exit` does to the table**: the process is a zombie, its children are the first process's, and
whoever may have to wait for one of them is awake. -/
structure Exits (T T' : Table) (p : Slot) : Prop where
  self : (T' p).state = .zombie
  other : ∀ q, q ≠ p → (T' q).state = (T q).state ∨ (T q).state = .sleeping ∧ (T' q).state = .runnable
  parent : ∀ q, (T' q).parent = if (T q).parent = some p then some initproc else (T q).parent
  pid : ∀ q, (T' q).pid = (T q).pid
  chan : ∀ q, (T' q).chan = (T q).chan
  killed : ∀ q, (T' q).killed = (T q).killed
  regions : ∀ q, q ≠ p → (T' q).regions = (T q).regions
  woken : ∀ r, r ≠ p → (T p).parent = some r → (T r).chan = some (.proc r) → (T' r).state ≠ .sleeping
  init : ∀ q, p ≠ initproc → (T q).parent = some p → (T q).state = .zombie →
    (T initproc).chan = some (.proc initproc) → (T' initproc).state ≠ .sleeping

/-- Whoever sleeps in `wait` after it, did before. -/
theorem Exits.waits (h : Exits s.table s'.table p) (hctl : s'.ctl = update s.ctl p (.leave .dead))
    (hr : Waits s' r) : r ≠ p ∧ Waits s r := by
  have hrp : r ≠ p := fun he => by
    rw [he, Waits, h.self] at hr
    exact nomatch hr.1
  refine ⟨hrp, ?_, ?_⟩
  · rcases h.other r hrp with hs | ⟨hs, -⟩
    · exact hs.symm.trans hr.1
    · exact hs
  · have hk := hr.2
    rwa [hctl, update_of_ne hrp] at hk

/-- A sleeper stays awake. -/
theorem Stirred.awake (h : Stirred T T') (hq : (T q).state ≠ .sleeping) : (T' q).state ≠ .sleeping := by
  rcases h q with h | ⟨h, h'⟩
  · rw [h]
    exact hq
  · exact absurd h hq

/-- `wakeup1` wakes those that sleep on the channel. -/
theorem wakeup1_state {chan : Chan} (h : (T q).chan = some chan) :
    (wakeup1 T chan q).state ≠ .sleeping := by
  rw [wakeup1]
  split
  · rintro ⟨⟩
  · exact fun hs => ‹¬ (_ ∧ _)› ⟨hs, h⟩

/-- One child is given to the first process. -/
theorem adoptTurn_spec (T : Table) (p q r : Slot) : SameFields T (adoptTurn p T q) r
    ∧ (adoptTurn p T q r).parent
      = if r = q ∧ (T r).parent = some p then some initproc else (T r).parent := by
  have hupdate : SameFields T (update T q { T q with parent := some initproc }) r :=
    ⟨field_update Entry.pid (by rfl) r, field_update Entry.chan (by rfl) r, field_update Entry.killed (by rfl) r,
      field_update Entry.regions (by rfl) r⟩
  have hparent : (update T q { T q with parent := some initproc } r).parent
      = if r = q then some initproc else (T r).parent := by
    by_cases hr : r = q
    · rw [hr, update_self, if_pos rfl]
    · rw [update_of_ne hr, if_neg hr]
  rw [adoptTurn]
  split
  · rename_i hq
    have hif : (if r = q ∧ (T r).parent = some p then some initproc else (T r).parent)
        = if r = q then some initproc else (T r).parent := by
      by_cases hr : r = q
      · rw [if_pos ⟨hr, hr ▸ hq⟩, if_pos hr]
      · rw [if_neg (hr ·.1), if_neg hr]
    rw [hif]
    dsimp only
    split
    · have hw := sameFields_wakeup1 (update T q { T q with parent := some initproc })
        (.proc initproc) r
      exact ⟨hupdate.trans hw.1, hw.2.trans hparent⟩
    · exact ⟨hupdate, hparent⟩
  · rename_i hq
    refine ⟨.refl T r, (if_neg fun h => hq ?_).symm⟩
    rw [← h.1]
    exact h.2

/-- The loop over a part of the table. -/
theorem foldl_adoptTurn_spec (p : Slot) (l : List Slot) (hl : l.Nodup) (T : Table) (r : Slot) :
    SameFields T (l.foldl (adoptTurn p) T) r
      ∧ (r ∈ l → (l.foldl (adoptTurn p) T r).parent
        = if (T r).parent = some p then some initproc else (T r).parent)
      ∧ (r ∉ l → (l.foldl (adoptTurn p) T r).parent = (T r).parent) := by
  induction l generalizing T with
  | nil => exact ⟨.refl T r, fun h => absurd h List.not_mem_nil, fun _ => rfl⟩
  | cons q l ih =>
    obtain ⟨hq, hl⟩ := List.nodup_cons.mp hl
    obtain ⟨h₁, hone⟩ := adoptTurn_spec T p q r
    obtain ⟨h₂, hin, hout⟩ := ih hl (adoptTurn p T q)
    refine ⟨h₁.trans h₂, ?_⟩
    rw [hone] at hin hout
    by_cases hr : r = q
    · subst hr
      refine ⟨fun _ => ?_, fun h => absurd List.mem_cons_self h⟩
      rw [List.foldl_cons, hout hq]
      simp
    · simp only [hr, false_and, if_false] at hin hout
      simp only [List.foldl_cons, List.mem_cons, hr, false_or]
      exact ⟨hin, hout⟩

/-- …wakes the first process if it gives it a zombie. -/
theorem foldl_adoptTurn_woken (p : Slot) (l : List Slot) (hl : l.Nodup) (T : Table) (hq : q ∈ l)
    (hparent : (T q).parent = some p) (hz : (T q).state = .zombie)
    (hchan : (T initproc).chan = some (.proc initproc)) :
    (l.foldl (adoptTurn p) T initproc).state ≠ .sleeping := by
  induction l generalizing T with
  | nil => exact absurd hq List.not_mem_nil
  | cons r l ih =>
    obtain ⟨hr, hl⟩ := List.nodup_cons.mp hl
    obtain ⟨hf, hp⟩ := adoptTurn_spec T p r q
    rw [List.foldl_cons]
    by_cases hqr : q = r
    · subst hqr
      refine (stirred_foldl_adoptTurn p l _).awake ?_
      rw [adoptTurn, if_pos hparent]
      dsimp only
      rw [if_pos hz]
      exact wakeup1_state ((field_update Entry.chan (by rfl) _).trans hchan)
    · refine ih hl _ ((List.mem_cons.mp hq).resolve_left hqr) ?_ ?_ ?_
      · rw [hp, if_neg (hqr ·.1)]
        exact hparent
      · rcases stirred_adoptTurn T p r q with h | ⟨h, -⟩
        · exact h.trans hz
        · cases hz.symm.trans h
      · exact (adoptTurn_spec T p r initproc).1.chan.trans hchan

theorem adopt_spec (p : Slot) (T : Table) (r : Slot) : SameFields T (adopt T p) r
    ∧ (adopt T p r).parent = if (T r).parent = some p then some initproc else (T r).parent := by
  have h := foldl_adoptTurn_spec p _ (List.nodup_finRange NPROC) T r
  rw [adopt_eq]
  exact ⟨h.1, h.2.1 (List.mem_finRange r)⟩

theorem wakeParent_spec (T : Table) (p q : Slot) : SameFields T (wakeParent T p) q
    ∧ (wakeParent T p q).parent = (T q).parent := by
  rw [wakeParent]
  cases (T p).parent with
  | none => exact ⟨.refl T q, rfl⟩
  | some r => exact sameFields_wakeup1 T (.proc r) q

theorem exits_exitTable (T : Table) (p : Slot) : Exits T (exitTable T p) p := by
  have hstir := (stirred_wakeParent T p).trans (stirred_adopt (wakeParent T p) p)
  have hadopt := adopt_spec p (wakeParent T p)
  have hfield : ∀ {α : Type} (f : Entry → α) (q : Slot),
      (∀ x : Entry, f { x with state := .zombie, regions := 0 } = f x) →
      f (exitTable T p q) = f (adopt (wakeParent T p) p q) := fun f q hf => field_update f (hf _) q
  have hsame : ∀ q, SameFields T (adopt (wakeParent T p) p) q := fun q =>
    (wakeParent_spec T p q).1.trans (hadopt q).1
  refine ⟨exitTable_state T p, fun q hq => ?_, fun q => ?_, fun q => ?_, fun q => ?_, fun q => ?_,
    fun q hq => ?_, fun r hr hp hc => ?_, fun q hinit hq hz hc => ?_⟩
  · rw [exitTable_of_ne T hq]
    exact hstir q
  · rw [hfield Entry.parent q fun _ => rfl, (hadopt q).2, (wakeParent_spec T p q).2]
  · exact (hfield Entry.pid q fun _ => rfl).trans (hsame q).pid
  · exact (hfield Entry.chan q fun _ => rfl).trans (hsame q).chan
  · exact (hfield Entry.killed q fun _ => rfl).trans (hsame q).killed
  · rw [exitTable_of_ne T hq]
    exact (hsame q).regions
  · rw [exitTable_of_ne T hr]
    refine (stirred_adopt _ p).awake ?_
    rw [wakeParent, hp]
    exact wakeup1_state hc
  · rw [exitTable_of_ne T (Ne.symm hinit), adopt_eq]
    refine foldl_adoptTurn_woken p _ (List.nodup_finRange NPROC) _ (List.mem_finRange q) ?_ ?_ ?_
    · exact (wakeParent_spec T p q).2.trans hq
    · rcases stirred_wakeParent T p q with h | ⟨h, -⟩
      · exact h.trans hz
      · cases hz.symm.trans h
    · exact (wakeParent_spec T p initproc).1.chan.trans hc

/-! ## Families -/

/-- A process, or what is left of one. -/
def Entry.Known (e : Entry) : Prop := e.Alive ∨ e.state = .zombie

/-- **Everybody's parent can still wait for them**, and nobody waits for a zombie child. -/
structure Family (s : State n) : Prop where
  init : (s.table initproc).Alive
  orphan : (s.table initproc).parent = none
  irrefl : ∀ q, (s.table q).parent ≠ some q
  parent : ∀ q, q ≠ initproc → (s.table q).Known → ∃ p, (s.table q).parent = some p ∧ (s.table p).Alive
  forking : ∀ p q b, (s.ctl p).forks = some (q, b) →
    (s.table p).Alive ∧ (b = true → (s.table q).parent = some p)
  waits : ∀ p, Waits s p → (s.table p).chan = some (.proc p)
    ∧ ∀ q, (s.table q).parent = some p → (s.table q).state ≠ .zombie

/-- A process falls asleep, as in `wait` but anywhere else. -/
theorem calm_doze (hrun : (s.table p).state = .running) (hctl : (s.ctl p).forks = none) :
    Calm s ((s.put p { s.table p with chan := some (.proc p), state := .sleeping }).goto p
      (.leave .slept)) :=
  .of_self rfl rfl (.of_running hrun) (.inl rfl) rfl rfl rfl rfl hctl.symm
    (fun _ hy => by simp at hy) rfl rfl rfl

/-- At the start nobody has a parent… -/
theorem Start.parent (h : Start s) (q : Slot) : (s.table q).parent = none := by
  rw [h.table, field_update Entry.parent (by rfl)]
  rfl

/-- …or waits. -/
theorem Start.not_waits (h : Start s) (p : Slot) : ¬ Waits s p := fun hp => by
  have hk : s.ctl p = .out .enter ∨ s.ctl p = .out .dead := by
    rw [h.ctl]
    by_cases hpi : p = initproc
    · exact .inl (by rw [hpi, update_self])
    · exact .inr (by rw [update_of_ne hpi])
  rcases hk with hk | hk <;> rcases hp.2 with h' | h' <;> cases hk.symm.trans h'

namespace Family

theorem of_start (h : Start s) : Family s := by
  have hinit : s.table initproc = { Entry.zero with state := .runnable, pid := 1 } := by
    rw [h.table, update_self]
  refine ⟨?_, h.parent _, fun q hq => (nomatch (h.parent q).symm.trans hq), fun q hq hk => ?_,
    fun p q b hf => (nomatch (h.forks p).symm.trans hf), fun p hw => absurd hw (h.not_waits p)⟩
  · rw [hinit]
    exact .inr (.inl rfl)
  · rw [h.table, update_of_ne hq] at hk
    rcases hk with (hk | hk | hk) | hk <;> exact nomatch hk

theorem known_iff {s s' : State n} (h : Kin s s') : (s'.table q).Known ↔ (s.table q).Known :=
  or_congr (h.alive q) h.zombie_iff

theorem kin (h : Family s) (hk : Kin s s') : Family s' where
  init := (hk.alive _).mpr h.init
  orphan := (hk.parent _).trans h.orphan
  irrefl q := by
    rw [hk.parent]
    exact h.irrefl q
  parent q hq hq' := by
    obtain ⟨p, hp, hal⟩ := h.parent q hq ((known_iff hk).mp hq')
    exact ⟨p, (hk.parent q).trans hp, (hk.alive p).mpr hal⟩
  forking p q b hf := by
    rw [hk.forks] at hf
    rw [hk.alive, hk.parent]
    exact h.forking p q b hf
  waits p hp := by
    obtain ⟨hw, hc⟩ := hk.waits p hp
    obtain ⟨hchan, hkids⟩ := h.waits p hw
    refine ⟨hc.trans hchan, fun q hq hz => hkids q ((hk.parent q).symm.trans hq) ?_⟩
    exact hk.zombie_iff.mp hz

/-- A slot that is no process alive is changed, while a process may change where it is in `fork`. -/
theorem edit (h : Family s) {x : Entry} (hq : ¬ (s.table q).Alive)
    (htable : s'.table = update s.table q x)
    (hx : x.Alive → ∃ p, x.parent = some p ∧ (s.table p).Alive) (hz : x.state ≠ .zombie)
    (hs : x.state ≠ .sleeping) (hself : x.parent ≠ some q) (hforking : ∀ p r b, (s'.ctl p).forks = some (r, b) →
      (s.table p).Alive ∧ (b = true → (s'.table r).parent = some p))
    (hwaits : ∀ p, (s'.ctl p = .leave .waited ∨ s'.ctl p = .out .waited) →
      s'.ctl p = s.ctl p) : Family s' := by
  have hq' : s'.table q = x := by rw [htable, update_self]
  have hother : ∀ {r}, r ≠ q → s'.table r = s.table r := fun hr => by
    rw [htable, update_of_ne hr]
  have halive : ∀ {r}, (s.table r).Alive → (s'.table r).Alive := fun {r} hr => by
    rw [hother fun he => hq (he ▸ hr)]
    exact hr
  refine ⟨halive h.init, ?_, fun r hr => ?_, fun r hr hk => ?_, fun p r b hf => ?_, fun p hp => ?_⟩
  · rw [hother fun he => hq (he ▸ h.init)]
    exact h.orphan
  · by_cases hrq : r = q
    · rw [hrq, hq'] at hr
      exact hself hr
    · rw [hother hrq] at hr
      exact h.irrefl r hr
  · by_cases hrq : r = q
    · rw [hrq, hq'] at hk ⊢
      obtain ⟨p, hp, hal⟩ := hx (hk.resolve_right hz)
      exact ⟨p, hp, halive hal⟩
    · rw [hother hrq] at hk ⊢
      obtain ⟨p, hp, hal⟩ := h.parent r hr hk
      exact ⟨p, hp, halive hal⟩
  · obtain ⟨hal, hpar⟩ := hforking p r b hf
    exact ⟨halive hal, hpar⟩
  · have hpq : p ≠ q := fun he => hs (by rw [← hq', ← he]; exact hp.1)
    have hw : Waits s p := by
      rw [Waits, hother hpq, hwaits p hp.2] at hp
      exact hp
    obtain ⟨hchan, hkids⟩ := h.waits p hw
    refine ⟨by rw [hother hpq]; exact hchan, fun r hr hrz => ?_⟩
    by_cases hrq : r = q
    · rw [hrq, hq'] at hrz
      exact hz hrz
    · rw [hother hrq] at hr hrz
      exact hkids r hr hrz

/-- A process leaves. -/
theorem exit (h : Family s) (hctl : (s.ctl p).forks = none) (hinit : p ≠ initproc)
    (hal : (s.table p).Alive) (hx : Exits s.table s'.table p)
    (hctl' : s'.ctl = update s.ctl p (.leave .dead)) : Family s' := by
  have hne : ∀ {r}, (s.table r).Alive → r ≠ p → (s'.table r).Alive := by
    intro r hr hrp
    rcases hx.other r hrp with hs | ⟨-, hs⟩
    · rw [Entry.Alive, hs]
      exact hr
    · exact .inr (.inl hs)
  refine ⟨hne h.init (Ne.symm hinit), ?_, fun q hq => ?_, fun q hq hk => ?_, fun r q b hf => ?_,
    fun r hr => ?_⟩
  · rw [hx.parent, h.orphan]
    rfl
  · rw [hx.parent] at hq
    split at hq
    · rename_i hchild
      rw [← Option.some.inj hq, h.orphan] at hchild
      exact nomatch hchild
    · exact h.irrefl q hq
  · -- the children of the process are the first one's, the others keep their parent
    have hk' : (s.table q).Known := by
      by_cases hqp : q = p
      · exact .inl (hqp ▸ hal)
      · rcases hx.other q hqp with hs | ⟨hs, -⟩
        · rw [Entry.Known, Entry.Alive, ← hs]
          exact hk
        · exact .inl (.inl hs)
    obtain ⟨r, hr, hral⟩ := h.parent q hq hk'
    rw [hx.parent, hr]
    by_cases hrp : r = p
    · rw [hrp, if_pos rfl]
      exact ⟨initproc, rfl, hne h.init (Ne.symm hinit)⟩
    · rw [if_neg fun he => hrp (Option.some.inj he)]
      exact ⟨r, rfl, hne hral hrp⟩
  · obtain ⟨hrp, hf⟩ := forks_goto rfl hctl' hf
    obtain ⟨hral, hpar⟩ := h.forking r q b hf
    refine ⟨hne hral hrp, fun hb => ?_⟩
    rw [hx.parent, hpar hb, if_neg fun he => hrp (Option.some.inj he)]
  · -- whoever sleeps in `wait` slept there before, and was given no zombie
    obtain ⟨hrp, hw⟩ := hx.waits hctl' hr
    obtain ⟨hchan, hkids⟩ := h.waits r hw
    refine ⟨(hx.chan r).trans hchan, fun q hq hz => ?_⟩
    rw [hx.parent] at hq
    by_cases hqp : q = p
    · subst hqp
      rw [if_neg (h.irrefl q)] at hq
      exact hx.woken r hrp hq hchan hr.1
    · have hz' : (s.table q).state = .zombie := by
        rcases hx.other q hqp with hs | ⟨-, hs⟩
        · exact hs.symm.trans hz
        · exact nomatch hz.symm.trans hs
      by_cases hchild : (s.table q).parent = some p
      · rw [if_pos hchild] at hq
        obtain rfl := Option.some.inj hq
        exact hx.init q hinit hchild hz' hchan hr.1
      · rw [if_neg hchild] at hq
        exact hkids q hq hz'

/-- A process falls asleep in `wait`, having found no zombie. -/
theorem doze (h : Family s) (hrun : (s.table p).state = .running) (hz : zombieOf s.table p = none)
    (hctl : (s.ctl p).forks = none) :
    Family ((s.put p { s.table p with chan := some (.proc p), state := .sleeping }).goto p
      (.leave .waited)) := by
  obtain ⟨x, hx⟩ : ∃ x, x = { s.table p with chan := some (.proc p), state := .sleeping } := ⟨_, rfl⟩
  have h₁ := h.kin (calm_doze hrun hctl).toKin
  rw [← hx] at h₁ ⊢
  have hctl' : ∀ r, r ≠ p → ((s.put p x).goto p (.leave .waited)).ctl r
      = ((s.put p x).goto p (.leave .slept)).ctl r := fun r hr => by
    rw [State.goto_ctl, State.goto_ctl, update_of_ne hr, update_of_ne hr]
  refine ⟨h₁.init, h₁.orphan, h₁.irrefl, h₁.parent, fun r q b hf => ?_, fun r hr => ?_⟩
  · by_cases hrp : r = p
    · rw [hrp, State.goto_ctl, update_self] at hf
      exact nomatch hf
    · rw [hctl' r hrp] at hf
      exact h₁.forking r q b hf
  · by_cases hrp : r = p
    · subst hrp
      refine ⟨by simp [hx], fun q hq hqz => ?_⟩
      have hqr : q ≠ r := fun he => by
        rw [he, State.goto_table, State.put_table, update_self, hx] at hqz
        exact nomatch hqz
      rw [State.goto_table, State.put_table, update_of_ne hqr] at hq hqz
      have := List.find?_eq_none.mp hz q (List.mem_finRange q)
      exact this (by simp [hq, hqz])
    · rw [Waits, hctl' r hrp] at hr
      exact h₁.waits r hr

/-- Where the others are in `fork`, while one slot changes and one process moves. -/
theorem forking_put (h : Family s) {x : Entry} (htable : s'.table = update s.table q x)
    (hctl : ∀ r z, r ≠ p → (s'.ctl r).forks = some z → (s.ctl r).forks = some z)
    (hno : ∀ r b, r ≠ p → (s.ctl r).forks ≠ some (q, b))
    (hp : ∀ q' b, (s'.ctl p).forks = some (q', b) →
      (s.table p).Alive ∧ (b = true → (s'.table q').parent = some p)) (r q' : Slot) (b : Bool)
    (hf : (s'.ctl r).forks = some (q', b)) :
    (s.table r).Alive ∧ (b = true → (s'.table q').parent = some r) := by
  by_cases hr : r = p
  · rw [hr] at hf ⊢
    exact hp q' b hf
  · have hf := hctl r _ hr hf
    have hq : q' ≠ q := fun he => hno r b hr (by rw [hf, he])
    rw [htable, update_of_ne hq]
    exact h.forking r q' b hf

/-- `fork` is done with its slot. -/
theorem unfork (h : Family s) (hp : Placed s) {b : Bool} {x : Entry} (hr : s.Runs c p (.forking q b))
    (hx : x.Alive → ∃ p, x.parent = some p ∧ (s.table p).Alive) (hz : x.state ≠ .zombie)
    (hs : x.state ≠ .sleeping) (hself : x.parent = (s.table q).parent) :
    Family ((s.put q x).goto p (.at .run)) := by
  obtain ⟨hembryo, -, hqp⟩ := hp.forking hr
  have hdead : ¬ (s.table q).Alive := by rintro (hq | hq | hq) <;> exact nomatch hembryo.symm.trans hq
  refine h.edit hdead rfl hx hz hs (hself ▸ h.irrefl q) (h.forking_put (p := p) rfl (fun r z hrp hf => ?_)
    (fun r b' hrp hf => hrp (hp.forks r p q b' b hf hr.forks)) fun q' b' hf => ?_) fun r hr' => ?_
  · rw [State.goto_ctl, update_of_ne hrp] at hf
    exact hf
  · exact absurd rfl (forks_goto rfl rfl hf).1
  · exact waited_goto ⟨nofun, nofun⟩ hr'

/-- **Every step keeps the families.** -/
theorem step (h : Family s) (hp : Placed s) (hstep : Step s e s') : Family s' := by
  by_cases he : e.Plain ∨ (∃ p pid r, e = .kill p pid r) ∨ (∃ p, e = .shareMem p)
  · exact h.kin (hstep.kin hp he)
  cases hstep with
  | exit hr hlock hinit =>
    exact h.exit hr.forks hinit (hp.alive hr) (exits_exitTable _ _) rfl
  | @reap c p q hpc hk hq =>
    have hz := (zombieOf_spec hq).2
    refine h.edit (x := (s.table q).reaped) ?_ rfl ?_ nofun nofun nofun
      (h.forking_put (p := p) rfl (fun r z hrp hf => ?_) (fun r b _ hf => ?_) fun q' b hf => ?_)
      fun r hr => ?_
    · rintro (hq | hq | hq) <;> exact nomatch hz.symm.trans hq
    · rintro (hq | hq | hq) <;> exact nomatch hq
    · rw [State.goto_ctl, update_of_ne hrp] at hf
      exact hf
    · exact nomatch hz.symm.trans (hp.embryo r q b hf)
    · exact absurd rfl (forks_goto rfl rfl hf).1
    · exact waited_goto ⟨nofun, nofun⟩ hr
  | @doze c p hpc hk hz =>
    exact h.doze (hp.scans hpc hk).1 hz (by rw [hk]; rfl)
  | full => exact h
  | @alloc c p q hr hlock hq =>
    have hunused := firstUnused_spec hq
    refine h.edit (x := { s.table q with state := .embryo, pid := pidOf s.nextpid }) ?_ rfl ?_ nofun nofun
      (h.irrefl q)
      (h.forking_put (p := p) rfl (fun r z hrp hf => ?_) (fun r b _ hf => ?_) fun q' b hf => ?_)
      fun r hr => ?_
    · rintro (hq | hq | hq) <;> exact nomatch hunused.symm.trans hq
    · rintro (hq | hq | hq) <;> exact nomatch hq
    · rw [State.goto_ctl, update_of_ne hrp] at hf
      exact hf
    · exact nomatch hunused.symm.trans (hp.embryo r q b hf)
    · rw [State.goto_ctl, update_self] at hf
      obtain ⟨rfl, rfl⟩ := Prod.mk.inj (Option.some.inj hf)
      exact ⟨hp.alive ‹_›, nofun⟩
    · exact waited_goto ⟨nofun, nofun⟩ hr
  | fail hr | crowded hr =>
    exact h.unfork hp hr (fun hx => by rcases hx with hx | hx | hx <;> exact nomatch hx) nofun nofun rfl
  | @link c p q hr =>
    obtain ⟨hembryo, -, hqp⟩ := hp.forking hr
    refine h.edit (x := { s.table q with parent := some p, regions := 0 }) ?_ rfl ?_ ?_ ?_ ?_
      (h.forking_put (p := p) rfl (fun r z hrp hf => ?_)
        (fun r b hrp hf => hrp (hp.forks r p q b false hf hr.forks)) fun q' b hf => ?_) fun r hr' => ?_
    · rintro (hq | hq | hq) <;> exact nomatch hembryo.symm.trans hq
    · rintro (hq | hq | hq) <;> exact nomatch hembryo.symm.trans hq
    · exact fun hq => nomatch hembryo.symm.trans hq
    · exact fun hq => nomatch hembryo.symm.trans hq
    · exact fun hq => hqp (Option.some.inj hq).symm
    · rw [State.goto_ctl, update_of_ne hrp] at hf
      by_cases hrq : r = q
      · rw [hrq, State.goto_ctl, update_self] at hf
        exact nomatch hf
      · rw [State.goto_ctl, update_of_ne hrq] at hf
        exact hf
    · rw [State.goto_ctl, update_self] at hf
      obtain ⟨rfl, rfl⟩ := Prod.mk.inj (Option.some.inj hf)
      refine ⟨hp.alive hr, fun _ => ?_⟩
      rw [State.goto_table, State.goto_table, State.put_table, update_self]
    · have hsame := waited_goto (y := .at (.forking q true)) ⟨nofun, nofun⟩ hr'
      rw [hsame] at hr'
      exact hsame.trans (waited_goto ⟨nofun, nofun⟩ hr')
  | @fork c p q hr hlock =>
    obtain ⟨hal, hpar⟩ := h.forking p q true hr.forks
    have h₁ := h.unfork hp (x := { s.table q with state := .runnable, regions := (s.table p).regions })
      hr (fun _ => ⟨p, hpar rfl, hal⟩) nofun nofun rfl
    exact ⟨h₁.init, h₁.orphan, h₁.irrefl, h₁.parent, h₁.forking, h₁.waits⟩
  | kill => exact absurd (.inr (.inl ⟨_, _, _, rfl⟩)) he
  | shareMem => exact absurd (.inr (.inr ⟨_, rfl⟩)) he
  | _ => exact absurd (.inl trivial) he

end Family

end Xv6.Sched
