import Xv6Ipc.Sched.Collect

/-!
# Sched/Children — whom `wait` waits for

`wait` tells whether the caller has children by the `parent` of every slot, whatever its state:

    havekids  ⟺  ∃ q, parent q = p          and not          ∃ q, parent q = p, q ≠ UNUSED

The two agree as long as a slot that is given back loses its parent.  `wait` clears it, and `fork` has not
written it when `copyuvm` fails; but a `fork` that fails for want of room in the table of shared regions
has (`Step.crowded`), and its caller then waits for nobody.
-/

namespace Xv6.Sched

open Runs
open Function (update_of_ne update_self update_eq_self_iff update_comm update)

variable {n : Nat} {s s' : State n} {e : Event} {c : Fin n} {p q r : Slot}

/-! ## Ties

In a run in which nobody with `MAXSHARED` regions forks, the slots that name `p` as their parent are the
children that `p` has forked or been given and not waited for, and the one it is about to fork. -/

/-- The caller of `fork` has room for one more region. -/
def Roomy (s : State n) (e : Event) : Prop := ∀ p q, e = .alloc p q → (s.table p).regions < MAXSHARED

/-- A step in which no process with `MAXSHARED` regions calls `fork`. -/
def RoomyStep (s : State n) (e : Event) (s' : State n) : Prop := Step s e s' ∧ Roomy s e

/-- **The parents written in the table are those of children.** -/
structure Tied (s : State n) : Prop where
  child : ∀ p q, (s.table q).parent = some p → q ∈ s.kids p ∨ (s.ctl p).forks = some (q, true)
  kids : ∀ p q, q ∈ s.kids p → (s.table q).parent = some p ∧ (s.table q).Known
  nodup : ∀ p, (s.kids p).Nodup
  waits : ∀ p, Waits s p → s.kids p ≠ []
  room : ∀ p q b, (s.ctl p).forks = some (q, b) → (s.table p).regions < MAXSHARED

theorem Entry.Known.used {x : Entry} (h : x.Known) : x.state ≠ .unused ∧ x.state ≠ .embryo := by
  rcases h with (h | h | h) | h <;> rw [h] <;> exact ⟨nofun, nofun⟩

/-- Whoever forks is a process. -/
theorem Family.forker_ne (h : Family s) {z : Slot × Bool} (hq : ¬ (s.table q).Known)
    (hr : (s.ctl r).forks = some z) : r ≠ q :=
  fun he => hq (.inl (he ▸ (h.forking r z.1 z.2 hr).1))

/-- A slot whose `parent` is not written yet. -/
theorem Placed.not_linked (h : Placed s) (hf : (s.ctl p).forks = some (q, false)) (r : Slot) :
    (s.ctl r).forks ≠ some (q, true) := fun hr => by
  rw [h.forks r p q true false hr hf, hf] at hr
  exact nomatch hr

namespace Tied

theorem of_start (h : Start s) : Tied s := by
  refine ⟨fun p q hq => ?_, fun p q hq => ?_, fun p => ?_, fun p hp => absurd hp (h.not_waits p),
    fun p q b hf => ?_⟩
  · cases (h.parent q).symm.trans hq
  · rw [h.kids] at hq
    exact absurd hq List.not_mem_nil
  · rw [h.kids]
    exact .nil
  · cases (h.forks p).symm.trans hf

/-- A slot that no process uses has no parent, and no more has one that is not yet given its own. -/
theorem parent_none (h : Tied s) (hq : ¬ (s.table q).Known)
    (hf : ∀ p, (s.ctl p).forks ≠ some (q, true)) : (s.table q).parent = none := by
  cases hparent : (s.table q).parent with
  | none => rfl
  | some p =>
    rcases h.child p q hparent with hk | hk
    · exact absurd (h.kids p q hk).2 hq
    · exact absurd hk (hf p)

theorem kin (h : Tied s) (hk : Kin s s')
    (hregions : ∀ p, (s.ctl p).forks ≠ none → (s'.table p).regions = (s.table p).regions) :
    Tied s' where
  child p q hq := by
    rw [hk.kids, hk.forks]
    exact h.child p q ((hk.parent q).symm.trans hq)
  kids p q hq := by
    rw [hk.kids] at hq
    obtain ⟨hparent, hknown⟩ := h.kids p q hq
    exact ⟨(hk.parent q).trans hparent, (Family.known_iff hk).mpr hknown⟩
  nodup p := by
    rw [hk.kids]
    exact h.nodup p
  waits p hp := by
    rw [hk.kids]
    exact h.waits p (hk.waits p hp).1
  room p q b hf := by
    rw [hk.forks] at hf
    rw [hregions p fun hnone => nomatch hf.symm.trans hnone]
    exact h.room p q b hf

/-- A slot changes that is no process before and after. -/
theorem edit (h : Tied s) {x : Entry} (hq : ¬ (s.table q).Known)
    (htable : s'.table = update s.table q x) (hx : ¬ x.Known) (hkids : s'.kids = s.kids)
    (hparent : ∀ p, x.parent = some p → (s'.ctl p).forks = some (q, true))
    (hforks : ∀ p r, r ≠ q → (s.ctl p).forks = some (r, true) → (s'.ctl p).forks = some (r, true))
    (hwaits : ∀ p, (s'.ctl p = .leave .waited ∨ s'.ctl p = .out .waited) → s'.ctl p = s.ctl p)
    (hroom : ∀ p r b, (s'.ctl p).forks = some (r, b) → p ≠ q ∧ (s.table p).regions < MAXSHARED) :
    Tied s' := by
  have hself : s'.table q = x := by rw [htable, update_self]
  have hother : ∀ {r}, r ≠ q → s'.table r = s.table r := fun hr => by
    rw [htable, update_of_ne hr]
  have hkid : ∀ {p r}, r ∈ s.kids p → r ≠ q := fun hr he => hq (he ▸ (h.kids _ _ hr).2)
  refine ⟨fun p r hr => ?_, fun p r hr => ?_, fun p => hkids ▸ h.nodup p, fun p hp => ?_,
    fun p r b hf => ?_⟩
  · by_cases hrq : r = q
    · rw [hrq, hself] at hr
      exact .inr (hrq ▸ hparent p hr)
    · rw [hother hrq] at hr
      rw [hkids]
      exact (h.child p r hr).imp_right (hforks p r hrq)
  · rw [hkids] at hr
    rw [hother (hkid hr)]
    exact h.kids p r hr
  · have hpq : p ≠ q := fun he => hx (hself ▸ he ▸ .inl (.inl hp.1))
    rw [Waits, hother hpq, hwaits p hp.2] at hp
    rw [hkids]
    exact h.waits p hp
  · obtain ⟨hpq, hroom⟩ := hroom p r b hf
    rw [hother hpq]
    exact hroom

/-- A process leaves its children to the first one. -/
theorem exit (h : Tied s) (hctl : (s.ctl p).forks = none) (hinit : p ≠ initproc)
    (hx : Exits s.table s'.table p) (hctl' : s'.ctl = update s.ctl p (.leave .dead))
    (hkids : s'.kids = s.adoptKids p) : Tied s' := by
  have hknown : ∀ {r}, (s.table r).Known → (s'.table r).Known := fun {r} hr => by
    by_cases hrp : r = p
    · rw [hrp]
      exact .inr hx.self
    · rcases hx.other r hrp with hs | ⟨-, hs⟩
      · rw [Entry.Known, Entry.Alive, hs]
        exact hr
      · exact .inl (.inr (.inl hs))
  have hkinit : s'.kids initproc = s.kids initproc ++ s.kids p := by rw [hkids, State.adoptKids, if_pos rfl]
  have hkself : s'.kids p = [] := by rw [hkids, State.adoptKids, if_neg hinit, if_pos rfl]
  have hkother : ∀ {r}, r ≠ initproc → r ≠ p → s'.kids r = s.kids r := fun hr hrp => by
    rw [hkids, State.adoptKids, if_neg hr, if_neg hrp]
  have hsub : ∀ {r q}, r ≠ p → q ∈ s.kids r → q ∈ s'.kids r := fun {r q} hrp hq => by
    by_cases hr : r = initproc
    · rw [hr, hkinit]
      exact List.mem_append_left _ (hr ▸ hq)
    · rw [hkother hr hrp]
      exact hq
  refine ⟨fun r q hq => ?_, fun r q hq => ?_, fun r => ?_, fun r hr => ?_, fun r q b hf => ?_⟩
  · rw [hx.parent] at hq
    split at hq
    · rename_i hqp
      rw [← Option.some.inj hq, hkinit]
      rcases h.child p q hqp with hk | hk
      · exact .inl (List.mem_append_right _ hk)
      · cases hctl.symm.trans hk
    · rename_i hqp
      have hrp : r ≠ p := fun he => hqp (he ▸ hq)
      rw [hctl', update_of_ne hrp]
      exact (h.child r q hq).imp_left (hsub hrp)
  · by_cases hri : r = initproc
    · rw [hri, hkinit] at hq
      rw [hri, hx.parent]
      rcases List.mem_append.mp hq with hq | hq
      · obtain ⟨hparent, hk⟩ := h.kids initproc q hq
        rw [hparent, if_neg fun he => hinit (Option.some.inj he).symm]
        exact ⟨rfl, hknown hk⟩
      · obtain ⟨hparent, hk⟩ := h.kids p q hq
        rw [if_pos hparent]
        exact ⟨rfl, hknown hk⟩
    · have hrp : r ≠ p := fun he => by
        rw [he, hkself] at hq
        exact absurd hq List.not_mem_nil
      rw [hkother hri hrp] at hq
      obtain ⟨hparent, hk⟩ := h.kids r q hq
      rw [hx.parent, hparent, if_neg fun he => hrp (Option.some.inj he)]
      exact ⟨rfl, hknown hk⟩
  · by_cases hri : r = initproc
    · rw [hri, hkinit]
      refine List.nodup_append.mpr ⟨h.nodup _, h.nodup _, fun q hq q' hq' he => hinit ?_⟩
      exact Option.some.inj ((h.kids p q (he ▸ hq')).1.symm.trans (h.kids initproc q hq).1)
    · by_cases hrp : r = p
      · rw [hrp, hkself]
        exact .nil
      · rw [hkother hri hrp]
        exact h.nodup r
  · obtain ⟨hrp, hw⟩ := hx.waits hctl' hr
    obtain ⟨q, hq⟩ := List.exists_mem_of_ne_nil _ (h.waits r hw)
    exact List.ne_nil_of_mem (hsub hrp hq)
  · obtain ⟨hrp, hf⟩ := forks_goto rfl hctl' hf
    rw [hx.regions r hrp]
    exact h.room r q b hf

/-- `wait` frees a child. -/
theorem reap (h : Tied s) (hq : zombieOf s.table p = some q) (hk : (s.ctl p).forks = none)
    (htable : s'.table = update s.table q (s.table q).reaped)
    (hctl' : s'.ctl = update s.ctl p (.at .run))
    (hkids : s'.kids = update s.kids p ((s.kids p).erase q)) : Tied s' := by
  obtain ⟨hparent, hzombie⟩ := zombieOf_spec hq
  have hself : s'.table q = (s.table q).reaped := by rw [htable, update_self]
  have hother : ∀ {r}, r ≠ q → s'.table r = s.table r := fun hr => by
    rw [htable, update_of_ne hr]
  have hforks : ∀ r, (s'.ctl r).forks = (s.ctl r).forks := fun r => by
    rw [hctl']
    exact field_update Ctl.forks (by exact hk.symm) r
  -- the child is struck from its parent's list, and is in no other
  have hmem : ∀ r t, t ∈ s'.kids r ↔ t ∈ s.kids r ∧ t ≠ q := fun r t => by
    by_cases hrp : r = p
    · rw [hrp, hkids, update_self, (h.nodup p).mem_erase_iff, and_comm]
    · rw [hkids, update_of_ne hrp]
      refine ⟨fun ht => ⟨ht, fun he => hrp ?_⟩, And.left⟩
      exact Option.some.inj ((h.kids r q (he ▸ ht)).1.symm.trans hparent)
  refine ⟨fun r t ht => ?_, fun r t ht => ?_, fun r => ?_, fun r hr => ?_, fun r t b hf => ?_⟩
  · have htq : t ≠ q := fun he => by
      rw [he, hself] at ht
      cases ht
    rw [hother htq] at ht
    rw [hforks, hmem]
    exact (h.child r t ht).imp_left fun hk => ⟨hk, htq⟩
  · obtain ⟨ht, htq⟩ := (hmem r t).mp ht
    rw [hother htq]
    exact h.kids r t ht
  · by_cases hrp : r = p
    · rw [hrp, hkids, update_self]
      exact (h.nodup p).erase q
    · rw [hkids, update_of_ne hrp]
      exact h.nodup r
  · have hrp : r ≠ p := fun he => by
      rw [he, Waits, hctl', update_self] at hr
      rcases hr.2 with hr | hr <;> cases hr
    have hrq : r ≠ q := fun he => by
      rw [he, Waits, hself] at hr
      cases hr.1
    rw [Waits, hother hrq, hctl', update_of_ne hrp] at hr
    rw [hkids, update_of_ne hrp]
    exact h.waits r hr
  · rw [hforks] at hf
    by_cases hrq : r = q
    · rw [hrq, hself]
      exact h.room q t b (hrq ▸ hf)
    · rw [hother hrq]
      exact h.room r t b hf

/-- `fork` makes its slot a process. -/
theorem fork (h : Tied s) (hp : Placed s) {x : Entry} (hf : (s.ctl p).forks = some (q, true))
    (htable : s'.table = update s.table q x) (hx : x.state = .runnable)
    (hparent : x.parent = some p) (hctl' : s'.ctl = update s.ctl p (.at .run))
    (hkids : s'.kids = update s.kids p (q :: s.kids p)) : Tied s' := by
  have hembryo := hp.embryo p q true hf
  have hself : s'.table q = x := by rw [htable, update_self]
  have hother : ∀ {r}, r ≠ q → s'.table r = s.table r := fun hr => by
    rw [htable, update_of_ne hr]
  have hkid : ∀ {r t}, t ∈ s.kids r → t ≠ q := fun ht he => (h.kids _ _ ht).2.used.2 (he ▸ hembryo)
  have hsub : ∀ {r t}, t ∈ s.kids r → t ∈ s'.kids r := fun {r t} ht => by
    by_cases hrp : r = p
    · rw [hrp, hkids, update_self]
      exact List.mem_cons_of_mem _ (hrp ▸ ht)
    · rw [hkids, update_of_ne hrp]
      exact ht
  have hnew : q ∈ s'.kids p := by
    rw [hkids, update_self]
    exact List.mem_cons_self
  refine ⟨fun r t ht => ?_, fun r t ht => ?_, fun r => ?_, fun r hr => ?_, fun r t b hr => ?_⟩
  · by_cases htq : t = q
    · rw [htq, hself, hparent] at ht
      rw [htq, ← Option.some.inj ht]
      exact .inl hnew
    · rw [hother htq] at ht
      rcases h.child r t ht with hk | hk
      · exact .inl (hsub hk)
      · have hrp : r ≠ p := fun he => htq (by
          rw [he, hf] at hk
          exact (Prod.mk.inj (Option.some.inj hk)).1.symm)
        rw [hctl', update_of_ne hrp]
        exact .inr hk
  · have ht' : t = q ∧ r = p ∨ t ∈ s.kids r := by
      by_cases hrp : r = p
      · rw [hrp, hkids, update_self] at ht
        exact (List.mem_cons.mp ht).imp (⟨·, hrp⟩) (hrp ▸ ·)
      · rw [hkids, update_of_ne hrp] at ht
        exact .inr ht
    rcases ht' with ⟨htq, hrp⟩ | ht
    · rw [htq, hrp, hself]
      exact ⟨hparent, .inl (.inr (.inl hx))⟩
    · rw [hother (hkid ht)]
      exact h.kids r t ht
  · by_cases hrp : r = p
    · rw [hrp, hkids, update_self]
      exact (h.nodup p).cons fun hq => hkid hq rfl
    · rw [hkids, update_of_ne hrp]
      exact h.nodup r
  · by_cases hrp : r = p
    · rw [hrp]
      exact List.ne_nil_of_mem hnew
    · have hrq : r ≠ q := fun he => by
        rw [he, Waits, hself, hx] at hr
        cases hr.1
      rw [Waits, hother hrq, hctl', update_of_ne hrp] at hr
      rw [hkids, update_of_ne hrp]
      exact h.waits r hr
  · obtain ⟨-, hr⟩ := forks_goto rfl hctl' hr
    have hrq : r ≠ q := fun he => by
      rw [he, hp.linked p q hf] at hr
      cases hr
    rw [hother hrq]
    exact h.room r t b hr

/-- A process with a child falls asleep in `wait`. -/
theorem doze (h : Tied s) (hrun : (s.table p).state = .running) (hctl : (s.ctl p).forks = none)
    (hkids : s.kids p ≠ []) :
    Tied ((s.put p { s.table p with chan := some (.proc p), state := .sleeping }).goto p
      (.leave .waited)) := by
  obtain ⟨x, hx⟩ : ∃ x, x = { s.table p with chan := some (.proc p), state := .sleeping } := ⟨_, rfl⟩
  have hcalm := calm_doze hrun hctl
  have h₁ := h.kin hcalm.toKin fun r _ => hcalm.regions r
  rw [← hx] at h₁ ⊢
  have hforks : ∀ r, (((s.put p x).goto p (.leave .waited)).ctl r).forks
      = (((s.put p x).goto p (.leave .slept)).ctl r).forks := fun r => by
    exact (field_update Ctl.forks (by exact hctl.symm) r).trans
      (field_update Ctl.forks (by exact hctl.symm) r).symm
  refine ⟨fun r q hq => ?_, h₁.kids, h₁.nodup, fun r hr => ?_, fun r q b hf => ?_⟩
  · rw [hforks]
    exact h₁.child r q hq
  · by_cases hrp : r = p
    · rw [hrp]
      exact hkids
    · refine h₁.waits r ⟨hr.1, ?_⟩
      rw [State.goto_ctl, update_of_ne hrp]
      have := hr.2
      rw [State.goto_ctl, update_of_ne hrp] at this
      exact this
  · rw [hforks] at hf
    exact h₁.room r q b hf

/-- A process not in `fork` whose slots names children has some. -/
theorem kids_of_havekids (h : Tied s) (hctl : (s.ctl p).forks = none) (hk : Havekids s.table p) :
    s.kids p ≠ [] := by
  obtain ⟨q, hq⟩ := hk
  rcases h.child p q hq with hq | hq
  · exact List.ne_nil_of_mem hq
  · exact nomatch hctl.symm.trans hq

/-- A slot that is free has no children. -/
theorem kids_of_unused (h : Tied s) (hf : Family s) (hq : (s.table q).state = .unused) :
    s.kids q = [] := by
  refine List.eq_nil_iff_forall_not_mem.mpr fun r hr => ?_
  obtain ⟨hparent, hknown⟩ := h.kids q r hr
  have hri : r ≠ initproc := fun he => nomatch (he ▸ hf.orphan : (s.table r).parent = none).symm.trans hparent
  obtain ⟨p, hp, hal⟩ := hf.parent r hri hknown
  have hal : (s.table q).Alive := Option.some.inj (hparent.symm.trans hp) ▸ hal
  exact (Entry.Known.used (.inl hal)).1 hq

/-- **Every step keeps the ties**, if no process with `MAXSHARED` regions forks. -/
theorem step (h : Tied s) (hp : Placed s) (hf : Family s) (hstep : Step s e s') (hroom : Roomy s e) :
    Tied s' := by
  by_cases he : e.Plain
  · have hc := hstep.calm hp he
    exact h.kin hc.toKin fun r _ => hc.regions r
  cases hstep with
  | kill pid hr hlock =>
    exact h.kin (Step.kin (.kill pid hr hlock) hp (.inr (.inl ⟨_, _, _, rfl⟩)))
      fun r _ => (kill_fields s.table pid r).2.2.2
  | @shareMem c p hr hregions =>
    refine h.kin (Step.kin (.shareMem hr hregions) hp (.inr (.inr ⟨_, rfl⟩))) fun r hr' => ?_
    have hrp : r ≠ p := fun he => hr' (by rw [he, hr.ctl]; rfl)
    rw [State.put_table, update_of_ne hrp]
  | exit hr hlock hinit =>
    exact h.exit hr.forks hinit (exits_exitTable _ _) rfl rfl
  | reap hpc hk hq => exact h.reap hq (by rw [hk]; rfl) rfl rfl rfl
  | @doze c p hpc hk hz hkids =>
    have hctl : (s.ctl p).forks = none := by
      rw [hk]
      rfl
    exact h.doze (hp.scans hpc hk).1 hctl (h.kids_of_havekids hctl hkids)
  | full => exact h
  | @alloc c p q hr hlock hq =>
    have hunused := firstUnused_spec hq
    have hq' : ¬ (s.table q).Known := fun hk => hk.used.1 hunused
    have hqp : q ≠ p := fun he => hq' (.inl (he ▸ hp.alive hr))
    have hfree : (s.table q).parent = none :=
      h.parent_none hq' fun r hr => nomatch hunused.symm.trans (hp.embryo r q true hr)
    refine h.edit (x := { s.table q with state := .embryo, pid := pidOf s.nextpid }) hq' rfl
      (fun hk => hk.used.2 rfl) ?_ (fun r hr => nomatch hfree.symm.trans hr) (fun r t _ hr' => ?_)
      (fun r hr => waited_goto ⟨nofun, nofun⟩ hr) fun r t b hr' => ?_
    · exact update_eq_self_iff.mpr (h.kids_of_unused hf hunused).symm
    · have hrp : r ≠ p := fun he => by
        rw [he, hr.forks] at hr'
        exact nomatch hr'
      rw [State.goto_ctl, update_of_ne hrp]
      exact hr'
    · by_cases hrp : r = p
      · rw [hrp]
        exact ⟨hqp.symm, hroom p q rfl⟩
      · rw [State.goto_ctl, update_of_ne hrp] at hr'
        exact ⟨hf.forker_ne hq' hr', h.room r t b hr'⟩
  | @fail c p q hr =>
    have hforks := hr.forks
    have hq' : ¬ (s.table q).Known := fun hk => hk.used.2 (hp.embryo p q false hforks)
    have hfree := h.parent_none hq' (hp.not_linked hforks)
    refine h.edit (x := { s.table q with state := .unused }) hq' rfl (fun hk => hk.used.1 rfl) rfl
      (fun r hr => nomatch hfree.symm.trans hr) (fun r t htq hr' => ?_)
      (fun r hr => waited_goto ⟨nofun, nofun⟩ hr) fun r t b hr' => ?_
    · have hrp : r ≠ p := fun he => by
        rw [he, hforks] at hr'
        exact nomatch hr'
      rw [State.goto_ctl, update_of_ne hrp]
      exact hr'
    · have hr' := (forks_goto rfl rfl hr').2
      exact ⟨hf.forker_ne hq' hr', h.room r t b hr'⟩
  | @link c p q hr =>
    have hforks := hr.forks
    have hembryo := hp.embryo p q false hforks
    have hq' : ¬ (s.table q).Known := fun hk => hk.used.2 hembryo
    refine h.edit (x := { s.table q with parent := some p, regions := 0 }) hq' rfl
      (fun hk => hk.used.2 hembryo) rfl (fun r hr' => ?_) (fun r t htq hr' => ?_) (fun r hr' => ?_)
      fun r t b hr' => ?_
    · rw [← Option.some.inj hr', State.goto_ctl, update_self]
      rfl
    · have hrp : r ≠ p := fun he => by
        rw [he, hforks] at hr'
        exact nomatch hr'
      rw [State.goto_ctl, update_of_ne hrp, State.goto_ctl,
        update_of_ne (hf.forker_ne hq' hr')]
      exact hr'
    · have hsame := waited_goto (y := .at (.forking q true)) ⟨nofun, nofun⟩ hr'
      rw [hsame] at hr'
      exact hsame.trans (waited_goto ⟨nofun, nofun⟩ hr')
    · by_cases hrp : r = p
      · rw [hrp]
        exact ⟨hf.forker_ne hq' hforks, h.room p q false hforks⟩
      · rw [State.goto_ctl, update_of_ne hrp] at hr'
        have hr' := (forks_goto rfl rfl hr').2
        exact ⟨hf.forker_ne hq' hr', h.room r t b hr'⟩
  | crowded hr hregions =>
    exact absurd (h.room _ _ _ hr.forks) (Nat.not_lt.mpr hregions)
  | @fork c p q hr =>
    exact h.fork hp hr.forks rfl rfl ((hf.forking p q true hr.forks).2 rfl) rfl rfl
  | _ => exact absurd trivial he

end Tied

/-- The ties, in every state that such a run reaches. -/
theorem tied_of_reach (h : Reach Start RoomyStep s) : Tied s :=
  (h.keeps (P := fun s => Placed s ∧ Family s ∧ Tied s)
    (fun _ h => ⟨.of_start h, .of_start h, .of_start h⟩) fun _ _ _ ⟨hp, hf, ht⟩ hstep =>
      ⟨hp.step hstep.1, hf.step hp hstep.1, ht.step hp hf hstep.1 hstep.2⟩).2.2

/-! ## Waiting for somebody -/

/-- **Nobody waits for a process that does not exist.**  Whoever is asleep in `wait` has a child, and a
process that has collected all it has forked or been given is told so. -/
structure WaitsForKids (s : State n) : Prop where
  asleep : ∀ p, Waits s p → ∃ q, (s.table q).parent = some p ∧ (s.table q).state ≠ .unused
  done : ∀ c p, (s.cpu c).pc = .on p → s.ctl p = .scan → s.kids p = [] →
    (∃ s', Step s (.nokids p) s') ∧ (∀ q ret s', ¬ Step s (.reap p q ret) s')
      ∧ ∀ s', ¬ Step s (.doze p) s'

/-- **`wait` waits for a child, in every run in which no process with `MAXSHARED` regions forks.** -/
theorem waits_for_kids_of_roomy (h : Reach Start RoomyStep s) : WaitsForKids s := by
  have ht := tied_of_reach h
  refine ⟨fun p hp => ?_, fun c p hpc hk hkids => ?_⟩
  · obtain ⟨q, hq⟩ := List.exists_mem_of_ne_nil _ (ht.waits p hp)
    obtain ⟨hparent, hknown⟩ := ht.kids p q hq
    exact ⟨q, hparent, hknown.used.1⟩
  · have hctl : (s.ctl p).forks = none := by
      rw [hk]
      rfl
    have hnone : ¬ Havekids s.table p := fun hh => ht.kids_of_havekids hctl hh hkids
    have hz : zombieOf s.table p = none := by
      cases hz : zombieOf s.table p with
      | none => rfl
      | some q => exact absurd ⟨q, (zombieOf_spec hz).1⟩ hnone
    refine ⟨⟨_, .nokids hpc hk hz (.inl hnone)⟩, fun q ret s' hstep => ?_, fun s' hstep => ?_⟩
    · cases hstep with
      | reap _ _ hq => exact nomatch hz.symm.trans hq
    · cases hstep with
      | doze _ _ _ hh => exact hnone hh

/-- The first process forks, and waits for its child. -/
theorem waits_for_kids_of_roomy_forked :
    ∃ s : State 1, Reach Start RoomyStep s ∧ Waits s initproc ∧ WaitsForKids s := by
  have h₁ : Reach Start RoomyStep (running (0 : Fin 1)) :=
    (Reach.init (start_booted 1)).trace
      ((trace_running 0).restrict fun _ _ _ he hstep => ⟨hstep, fun p q ha => by simp [ha] at he⟩)
  have h₂ := h₁.step ⟨Step.alloc (c := 0) (p := initproc) (q := firstborn) ⟨by simp [running], rfl⟩ rfl
    (by rfl), fun p q ha => by cases ha; exact Nat.zero_lt_succ _⟩
  have h₃ := h₂.step ⟨Step.link (c := 0) (p := initproc) (q := firstborn) ⟨by simp [running], rfl⟩, by rintro _ _ ⟨⟩⟩
  have h₄ := h₃.step ⟨Step.fork (c := 0) (p := initproc) (q := firstborn) ⟨by simp [running], rfl⟩ rfl
    (Nat.zero_lt_succ _), by rintro _ _ ⟨⟩⟩
  have h₅ := h₄.step ⟨Step.wait (c := 0) (p := initproc) ⟨by simp [running], rfl⟩ rfl, by rintro _ _ ⟨⟩⟩
  have h₆ := h₅.step ⟨Step.doze (c := 0) (p := initproc) (by simp [running]) rfl (by rfl)
    ⟨firstborn, rfl⟩ rfl, by rintro _ _ ⟨⟩⟩
  exact ⟨_, h₆, ⟨rfl, .inl rfl⟩, waits_for_kids_of_roomy h₆⟩

/-! ### Waiting for nobody

    share_mem × 10;  fork ⟶ -1;  wait …

-/

/-- The first process has registered `k` regions. -/
def sharing (c : Fin n) (k : Nat) : State n :=
  (running c).put initproc { (running c).table initproc with regions := k }

theorem reach_sharing (c : Fin n) (k : Nat) (hk : k ≤ MAXSHARED) : Reach Start Step (sharing c k) := by
  induction k with
  | zero =>
    have h := reach_running c
    rwa [← show sharing c 0 = running c from by simp [sharing, State.put, running, Entry.zero]] at h
  | succ k ih =>
    have h := (ih (Nat.le_of_succ_le hk)).step (Step.shareMem (c := c) (p := initproc)
      ⟨by simp [sharing, running], rfl⟩ (by simpa [sharing] using Nat.lt_of_succ_le hk))
    simpa [sharing, State.put] using h

/-- What a call of `fork` that fails for want of a region makes of the state. -/
def State.forkFail (s : State n) (p q : Slot) : State n where
  table := update s.table q { s.table q with
    pid := pidOf s.nextpid, parent := some p, state := .unused, regions := (s.table p).regions }
  ctl := update (update s.ctl q (.out .enter)) p (.at .run)
  cpu := s.cpu
  lock := s.lock
  nextpid := s.nextpid + 1
  kids := update s.kids q []
  hit := update s.hit q false

theorem trace_forkFail (hr : s.Runs c p .run) (hlock : s.lock = none) (hq : firstUnused s.table = some q)
    (hqp : q ≠ p) (hregions : MAXSHARED ≤ (s.table p).regions) :
    Trace Step s [.alloc p q, .link p q, .fork p (-1)] (s.forkFail p q) := by
  have h₁ := (Trace.nil s).snoc (Step.alloc hr hlock hq)
  have h₂ := h₁.snoc (Step.link (c := c) (p := p) (q := q) ⟨hr.pc, by simp⟩)
  have h₃ := h₂.snoc (Step.crowded (c := c) (p := p) (q := q) ⟨hr.pc, by simp⟩
    (by simpa [hqp.symm] using hregions))
  have hctl : ∀ a, update (update s.ctl p a) q (.out .enter)
      = update (update s.ctl q (.out .enter)) p a := fun a =>
    update_comm hqp.symm _ _ _
  simpa [State.forkFail, State.put, State.goto, hqp.symm, hctl] using h₃

/-- **The first process shares ten regions, fails to fork, and waits for a slot that is not in use.** -/
theorem waits_for_nobody : ∃ s : State 1, Reach Start Step s ∧ Waits s initproc
    ∧ (∀ q, (s.table q).parent = some initproc → (s.table q).state = .unused)
    ∧ ¬ WaitsForKids s := by
  have h₀ := reach_sharing (0 : Fin 1) MAXSHARED (Nat.le_refl _)
  have h₁ := h₀.trace (trace_forkFail (c := 0) (p := initproc) (q := firstborn)
    ⟨by simp [sharing, running], rfl⟩ rfl (by rfl) (by decide) (Nat.le_refl _))
  have h₂ := h₁.step (Step.wait (c := 0) (p := initproc) ⟨by simp [State.forkFail, sharing, running], rfl⟩ rfl)
  have h₃ := h₂.step (Step.doze (c := 0) (p := initproc) (by simp [State.forkFail, sharing, running])
    rfl (by rfl) ⟨firstborn, rfl⟩ rfl)
  obtain ⟨s, hs, hw, hnone⟩ : ∃ s : State 1, Reach Start Step s ∧ Waits s initproc
      ∧ ∀ q, (s.table q).parent = some initproc → (s.table q).state = .unused :=
    ⟨_, h₃, ⟨rfl, .inl rfl⟩, by decide +kernel⟩
  refine ⟨s, hs, hw, hnone, fun hk => ?_⟩
  obtain ⟨q, hq, hused⟩ := hk.asleep initproc hw
  exact hused (hnone q hq)

end Xv6.Sched
