import Xv6Ipc.Drivers.Ide

/-!
# Drivers/Queue — who is where, and what is in the queue

An assertion for every line of `iderw` and `ideintr`, in terms of the list `Q` that `idequeue` points to:

    lock, walk      b ∉ Q, nothing transferred
    start           b ∈ Q, and the first of it only if it is the only one
    test            b ∈ Q, or b is transferred
    asleep          b ∈ Q, or ideintr has it and will wake us
    woken           b ∈ Q, or ideintr has it, or b is transferred
    unlock          b is transferred

A process moves from line to line without touching what the others' lines say; the few steps that do are
those that write the queue or a buffer.
-/

namespace Xv6.Ide

open Function

open Function (update)
open Chain

variable {P B D : Type}

/-! ## Who holds `idelock` -/

/-- The lines at which a process holds `idelock`… -/
@[grind] def Pc.Holds : Pc B → Prop
  | .walk _ _ => True
  | .start _ => True
  | .test _ => True
  | .unlock _ => True
  | _ => False

/-- …and those at which `ideintr` does. -/
@[grind] def Intr.Holds : Intr B → Prop
  | .idle => False
  | .lock => False
  | _ => True

/-- **`idelock` is held** where it should be. -/
structure Locks (s : State P B D) : Prop where
  proc : ∀ p, s.idelock = some (.proc p) ↔ (s.pc p).Holds
  intr : s.idelock = some .intr ↔ s.intr.Holds

namespace Locks

variable {s s' : State P B D} (h : Locks s) {p q : P}
include h

/-- One process at a time… -/
theorem unique (hp : (s.pc p).Holds) (hq : (s.pc q).Holds) : p = q := by
  have heq := ((h.proc p).mpr hp).symm.trans ((h.proc q).mpr hq)
  exact Holder.proc.inj (Option.some.inj heq)

/-- …and none while `ideintr` is at work. -/
theorem not_intr (hp : (s.pc p).Holds) : ¬ s.intr.Holds := fun hi => by
  have heq := ((h.proc p).mpr hp).symm.trans (h.intr.mpr hi)
  simp at heq

theorem not_holds (hfree : s.idelock = none) : ¬ (s.pc p).Holds := fun hp =>
  absurd ((h.proc p).mpr hp) (by simp [hfree])

theorem not_intr_of_free (hfree : s.idelock = none) : ¬ s.intr.Holds := fun hi =>
  absurd (h.intr.mpr hi) (by simp [hfree])

variable [DecidableEq P] [DecidableEq B] {e : Event P B D} {havedisk1 : Bool}

/-- **One step.** -/
theorem step (hs : Step havedisk1 s e s') : Locks s' := by
  obtain ⟨hproc, hintr⟩ := h
  cases hs with
  | @append p b pp hp _ =>
    have hsame : ∀ pp, (s.assign b pp).idelock = s.idelock ∧ (s.assign b pp).intr = s.intr := by
      rintro (_ | x) <;> exact ⟨rfl, rfl⟩
    constructor <;> grind [update_apply]
  | _ => constructor <;> grind [update_apply]

end Locks

/-! ## The assertions -/

/-- The lines after a process has put its buffer `b` into the queue, up to the end of the loop. -/
@[grind] def Pc.Waits (b : B) : Pc B → Prop
  | .start b' => b' = b
  | .test b' => b' = b
  | .asleep b' => b' = b
  | .woken b' => b' = b
  | _ => False

/-- All lines of a call of `iderw` with `b`. -/
@[grind] def Pc.At (b : B) : Pc B → Prop
  | .idle => False
  | .lock b' => b' = b
  | .walk b' _ => b' = b
  | .unlock b' => b' = b
  | pc => pc.Waits b

theorem Pc.Waits.at {b : B} {pc : Pc B} (h : pc.Waits b) : pc.At b := by
  cases pc <;> first | exact h | exact h.elim

/-- **What is true at each line of `iderw`**, for process `p`, with `Q` in the queue. -/
def Line (s : State P B D) (Q : List B) (p : P) : Pc B → Prop
  | .idle => True
  | .lock b => s.holder b = some p ∧ b ∉ Q ∧ ¬ (s.buf b).Synced
  | .walk b pp => s.holder b = some p ∧ b ∉ Q ∧ ¬ (s.buf b).Synced ∧ s.qnext b = none
    ∧ ∀ x, pp = some x → x ∈ Q
  | .start b => s.holder b = some p ∧ b ∈ Q ∧ (s.idequeue = some b → Q = [b])
  | .test b => s.holder b = some p ∧ (b ∈ Q ∨ (s.buf b).Synced)
  | .asleep b => s.holder b = some p ∧ (b ∈ Q ∨ s.intr = .transfer b ∨ s.intr = .wake b)
  | .woken b => s.holder b = some p ∧ (b ∈ Q ∨ s.intr = .transfer b ∨ (s.buf b).Synced)
  | .unlock b => s.holder b = some p ∧ (s.buf b).Synced

/-- A process is in `iderw` with a buffer it has locked. -/
theorem Line.holder {s : State P B D} {Q : List B} {p : P} {pc : Pc B} {b : B} (h : Line s Q p pc)
    (hat : pc.At b) : s.holder b = some p := by
  cases pc with
  | idle => exact hat.elim
  | _ =>
    obtain rfl := hat
    exact h.1

/-- Somebody waits for `b`. -/
def Awaited (s : State P B D) (b : B) : Prop := ∃ p, s.holder b = some p ∧ (s.pc p).Waits b

/-- **…and at each line of `ideintr`.** -/
def Handler (s : State P B D) (Q : List B) : Intr B → Prop
  | .transfer b => b ∉ Q ∧ ¬ (s.buf b).Synced ∧ Awaited s b
  | .wake b => (s.buf b).Synced ∧ Awaited s b
  | _ => True

/-- The lines of `ideintr` at which it has a buffer in its hands. -/
def Intr.Has (b : B) : Intr B → Prop
  | .transfer b' => b' = b
  | .wake b' => b' = b
  | _ => False

theorem Intr.Has.holds {i : Intr B} {b : B} (h : i.Has b) : i.Holds := by
  cases i with
  | idle | lock => exact h
  | _ => trivial

theorem Handler.awaited {s : State P B D} {Q : List B} {i : Intr B} {b : B} (h : Handler s Q i)
    (hb : i.Has b) : Awaited s b := by
  cases i with
  | transfer b' =>
    obtain rfl := hb
    exact h.2.2
  | wake b' =>
    obtain rfl := hb
    exact h.2
  | _ => exact hb.elim

/-- **The queue is `Q`**, and everybody is where it says. -/
structure Queue (s : State P B D) (Q : List B) : Prop where
  seg : Seg some s.qnext s.idequeue Q none
  line : ∀ p, Line s Q p (s.pc p)
  handler : Handler s Q s.intr
  queued : ∀ b ∈ Q, ¬ (s.buf b).Synced ∧ Awaited s b

namespace Queue

variable {s : State P B D} {Q : List B} (h : Queue s Q) {p : P} {b : B}
include h

theorem line_of {pc : Pc B} (hpc : s.pc p = pc) : Line s Q p pc := hpc ▸ h.line p

theorem nodup : Q.Nodup :=
  Seg.nodup (fun b => (Option.some_ne_none b).symm) (fun _ _ => Option.some.inj) h.seg

theorem idequeue_none (hq : s.idequeue = none) : Q = [] := by
  have hseg := h.seg
  rw [hq] at hseg
  exact Seg.unique (fun b => (Option.some_ne_none b).symm) (fun _ _ => Option.some.inj) hseg
    (.nil none)

theorem idequeue_some (hq : s.idequeue = some b) :
    ∃ rest, Q = b :: rest ∧ Seg some s.qnext (s.qnext b) rest none := by
  have hseg := h.seg
  rw [hq] at hseg
  cases hseg with
  | cons hrest => exact ⟨_, rfl, hrest⟩

theorem idequeue_cons {rest : List B} (hQ : Q = b :: rest) : s.idequeue = some b := by
  have hseg := h.seg
  rw [hQ] at hseg
  exact (Seg.cons_iff.mp hseg).1

/-- From a place in the queue the loop comes to the next. -/
theorem deref_mem {pp : Option B} {x : B} (hpp : ∀ y, pp = some y → y ∈ Q) (hx : s.deref pp = some x) :
    x ∈ Q := by
  cases pp with
  | none =>
    obtain ⟨rest, rfl, -⟩ := h.idequeue_some hx
    exact List.mem_cons_self
  | some y =>
    obtain ⟨l, l', rfl⟩ := List.append_of_mem (hpp y rfl)
    obtain ⟨z, -, htail⟩ := Seg.append_iff.mp h.seg
    have hrest := (Seg.cons_iff.mp htail).2
    rw [show s.qnext y = some x from hx] at hrest
    cases hrest with
    | cons _ => simp

/-- Nobody is in `iderw` with a buffer that nobody holds, or whose holder is not in `iderw`. -/
theorem unused (hfree : ∀ p, s.holder b = some p → s.pc p = .idle) (q : P) : ¬ (s.pc q).At b := by
  intro hat
  have hidle := hfree q ((h.line q).holder hat)
  rw [hidle] at hat
  exact hat

theorem not_mem (hfree : ∀ q, ¬ (s.pc q).At b) : b ∉ Q := fun hb => by
  obtain ⟨-, q, -, hq⟩ := h.queued b hb
  exact hfree q hq.at

theorem not_has (hfree : ∀ q, ¬ (s.pc q).At b) : ¬ s.intr.Has b := fun hb => by
  obtain ⟨q, -, hq⟩ := h.handler.awaited hb
  exact hfree q hq.at

end Queue

/-! ## A process goes on to another line -/

section Move

variable [DecidableEq P] {s : State P B D} {Q : List B} {p : P} {pc : Pc B} {b : B}

theorem Awaited.move {t : State P B D} (h : Awaited s b) (hpc : t.pc = update s.pc p pc)
    (hholder : t.holder = s.holder) (hwait : (s.pc p).Waits b → pc.Waits b) : Awaited t b := by
  obtain ⟨q, hq, hw⟩ := h
  refine ⟨q, by rw [hholder, hq], ?_⟩
  rw [hpc]
  by_cases hqp : q = p
  · subst hqp
    rw [update_self]
    exact hwait hw
  · rw [update_of_ne hqp]
    exact hw

/-- **A process goes on**: the others' lines say what they said, so its own is all there is to show. -/
theorem Queue.move (h : Queue s Q) (p : P) (pc : Pc B) (lk : Option (Holder P)) (d : Device D)
    (hnew : Line s Q p pc)
    (hwait : ∀ b, (s.pc p).Waits b → pc.Waits b ∨ b ∉ Q ∧ ¬ s.intr.Has b) :
    Queue { s with idelock := lk, pc := update s.pc p pc, device := d } Q := by
  have haw : ∀ {b}, (b ∈ Q ∨ s.intr.Has b) → Awaited s b →
      Awaited { s with idelock := lk, pc := update s.pc p pc, device := d } b := fun hb haw =>
    haw.move rfl rfl fun hw => (hwait _ hw).resolve_right fun hc => hb.elim hc.1 hc.2
  refine ⟨h.seg, fun q => ?_, ?_, fun b hb => ?_⟩
  · change Line s Q q (update s.pc p pc q)
    by_cases hqp : q = p
    · subst hqp
      rw [update_self]
      exact hnew
    · rw [update_of_ne hqp]
      exact h.line q
  · have hhand := h.handler
    change Handler _ Q s.intr
    generalize s.intr = i at hhand haw
    cases i with
    | transfer b => exact ⟨hhand.1, hhand.2.1, haw (.inr rfl) hhand.2.2⟩
    | wake b => exact ⟨hhand.1, haw (.inr rfl) hhand.2⟩
    | _ => trivial
  · obtain ⟨hsync, ha⟩ := h.queued b hb
    exact ⟨hsync, haw (.inl hb) ha⟩

end Move

/-! ## Buffers outside of `iderw` -/

/-- A buffer that nobody is in `iderw` with changes its holder or its contents. -/
theorem Queue.outside [DecidableEq B] {s : State P B D} {Q : List B} {b : B} (h : Queue s Q)
    (hfree : ∀ q, ¬ (s.pc q).At b) (o : Option P) (x : Buf D) :
    Queue { s with holder := update s.holder b o, buf := update s.buf b x } Q := by
  have hholder : ∀ {c}, c ≠ b → update s.holder b o c = s.holder c := fun hc =>
    update_of_ne hc _ _
  have hbuf : ∀ {c}, c ≠ b → update s.buf b x c = s.buf c := fun hc => update_of_ne hc _ _
  have haw : ∀ {c}, Awaited s c →
      Awaited { s with holder := update s.holder b o, buf := update s.buf b x } c := by
    rintro c ⟨q, hq, hw⟩
    refine ⟨q, ?_, hw⟩
    have hne : c ≠ b := by
      rintro rfl
      exact hfree q hw.at
    exact (hholder hne).trans hq
  refine ⟨h.seg, fun q => ?_, ?_, fun c hc => ?_⟩
  · have hline := h.line q
    have hother : ∀ c, (s.pc q).At c → c ≠ b := by
      rintro c hat rfl
      exact hfree q hat
    change Line _ Q q (s.pc q)
    generalize s.pc q = pc at hline hother
    cases pc with
    | idle => trivial
    | _ =>
      have hne := hother _ rfl
      simp only [Line, hholder hne, hbuf hne]
      exact hline
  · have hhand := h.handler
    have hother : ∀ c, s.intr.Has c → c ≠ b := by
      rintro c hat rfl
      exact h.not_has hfree hat
    change Handler _ Q s.intr
    generalize s.intr = i at hhand hother
    cases i with
    | transfer c =>
      refine ⟨hhand.1, ?_, haw hhand.2.2⟩
      change ¬ (update s.buf b x c).Synced
      rw [hbuf (hother c rfl)]
      exact hhand.2.1
    | wake c =>
      refine ⟨?_, haw hhand.2⟩
      change (update s.buf b x c).Synced
      rw [hbuf (hother c rfl)]
      exact hhand.1
    | _ => trivial
  · obtain ⟨hsync, ha⟩ := h.queued c hc
    have hne : c ≠ b := by
      rintro rfl
      exact h.not_mem hfree hc
    refine ⟨?_, haw ha⟩
    change ¬ (update s.buf b x c).Synced
    rw [hbuf hne]
    exact hsync

/-! ## Into the queue -/

section Append

variable [DecidableEq B] {s : State P B D} {Q : List B} {p : P} {b : B} {pp : Option B}

/-- `b->qnext = 0`, for a buffer on its way into the queue. -/
theorem Queue.clear (h : Queue s Q) (hb : b ∉ Q) :
    Queue { s with qnext := update s.qnext b none } Q := by
  refine ⟨h.seg.update hb none, fun q => ?_, h.handler, h.queued⟩
  have hline := h.line q
  change Line _ Q q (s.pc q)
  generalize s.pc q = pc at hline
  cases pc with
  | walk c pp =>
    refine ⟨hline.1, hline.2.1, hline.2.2.1, ?_, hline.2.2.2.2⟩
    change update s.qnext b none c = none
    by_cases hc : c = b
    · rw [hc, update_self]
    · rw [update_of_ne hc]
      exact hline.2.2.2.1
  | _ => exact hline

theorem State.assign_eq (s : State P B D) (b : B) (pp : Option B) :
    s.assign b pp = { s with idequeue := (s.assign b pp).idequeue, qnext := (s.assign b pp).qnext } := by
  cases pp <;> rfl

/-- `*pp = b` at the end of the list puts `b` there. -/
theorem Queue.assign_seg (h : Queue s Q) (hb : b ∉ Q) (hnext : s.qnext b = none)
    (hpp : ∀ x, pp = some x → x ∈ Q) (hend : s.deref pp = none) :
    Seg some (s.assign b pp).qnext (s.assign b pp).idequeue (Q ++ [b]) none := by
  cases pp with
  | none =>
    obtain rfl := h.idequeue_none hend
    refine .cons ?_
    change Seg some s.qnext (s.qnext b) [] none
    rw [hnext]
    exact .nil none
  | some x =>
    exact h.seg.concat (fun b => (Option.some_ne_none b).symm) (fun _ _ => Option.some.inj)
      (hpp x rfl) hend hb hnext

variable [DecidableEq P]

/-- **A process appends its buffer.** -/
theorem Queue.append (h : Queue s Q) (hl : Locks s) (hp : s.pc p = .walk b pp)
    (hend : s.deref pp = none) :
    Queue { s.assign b pp with pc := update s.pc p (.start b) } (Q ++ [b]) := by
  have hline := h.line p
  rw [hp] at hline
  obtain ⟨hholder, hb, hsync, hnext, hpp⟩ := hline
  have hseg := h.assign_seg hb hnext hpp hend
  have hholds : (s.pc p).Holds := by rw [hp]; trivial
  rw [State.assign_eq]
  have haw : ∀ {c}, Awaited s c → Awaited { s with
      idequeue := (s.assign b pp).idequeue, qnext := (s.assign b pp).qnext
      pc := update s.pc p (.start b) } c := fun ha =>
    ha.move rfl rfl fun hw => by
      rw [hp] at hw
      exact hw.elim
  refine ⟨hseg, fun q => ?_, ?_, fun c hc => ?_⟩
  · change Line _ (Q ++ [b]) q (update s.pc p (.start b) q)
    by_cases hqp : q = p
    · subst hqp
      rw [update_self]
      refine ⟨hholder, by simp, fun hfirst => ?_⟩
      -- the first of a list that ends with `b` is `b` only if there is nothing else
      change (s.assign b pp).idequeue = some b at hfirst
      rw [hfirst] at hseg
      cases Q with
      | nil => rfl
      | cons c rest =>
        have hc := (Seg.cons_iff.mp hseg).1
        exact absurd (Option.some.inj hc ▸ List.mem_cons_self) hb
    · rw [update_of_ne hqp]
      have hother := h.line q
      have hout : ¬ (s.pc q).Holds := fun hc => hqp (hl.unique hc hholds)
      generalize s.pc q = pc at hother hout
      cases pc with
      | idle => trivial
      | lock c =>
        refine ⟨hother.1, fun hc => ?_, hother.2.2⟩
        rcases List.mem_append.mp hc with hc | hc
        · exact hother.2.1 hc
        · obtain rfl := List.mem_singleton.mp hc
          exact hqp (Option.some.inj (hother.1.symm.trans hholder))
      | asleep c | woken c => exact ⟨hother.1, hother.2.imp_left (List.mem_append_left _)⟩
      | _ => exact absurd trivial hout
  · have hhand := h.handler
    have hout := hl.not_intr hholds
    change Handler _ (Q ++ [b]) s.intr
    generalize s.intr = i at hhand hout
    cases i with
    | transfer c | wake c => exact absurd trivial hout
    | _ => trivial
  · rcases List.mem_append.mp hc with hc | hc
    · obtain ⟨hns, ha⟩ := h.queued c hc
      exact ⟨hns, haw ha⟩
    · obtain rfl := List.mem_singleton.mp hc
      refine ⟨hsync, p, hholder, ?_⟩
      change (update s.pc p (.start c) p).Waits c
      rw [update_self]
      rfl

end Append

/-! ## `ideintr` -/

section Intr

variable {s : State P B D} {Q : List B} {b : B}

/-- `ideintr` goes on, with no buffer in its hands before or after. -/
theorem Queue.intr (h : Queue s Q) {i : Intr B} (hold : ∀ b, ¬ s.intr.Has b) (hnew : ∀ b, ¬ i.Has b)
    (lk : Option (Holder P)) (n : Nat) (d : Device D) :
    Queue { s with idelock := lk, irq := n, intr := i, device := d } Q := by
  refine ⟨h.seg, fun q => ?_, ?_, h.queued⟩
  · have hline := h.line q
    change Line _ Q q (s.pc q)
    generalize s.pc q = pc at hline
    cases pc with
    | asleep c =>
      refine ⟨hline.1, .inl (hline.2.resolve_right fun hc => hold c ?_)⟩
      rcases hc with hc | hc <;> rw [hc] <;> rfl
    | woken c =>
      refine ⟨hline.1, hline.2.imp_right fun hc => .inr (hc.resolve_left fun hc => hold c ?_)⟩
      rw [hc]
      rfl
    | _ => exact hline
  · cases i with
    | transfer c | wake c => exact absurd rfl (hnew c)
    | _ => trivial

/-- **`ideintr` takes the first buffer.** -/
theorem Queue.take (h : Queue s Q) (hl : Locks s) (hi : s.intr = .take) {rest : List B}
    (hQ : Q = b :: rest) : Queue { s with idequeue := s.qnext b, intr := .transfer b } rest := by
  have hn := h.nodup
  subst hQ
  have hseg := (Seg.cons_iff.mp h.seg).2
  have hb : b ∉ rest := (List.nodup_cons.mp hn).1
  refine ⟨hseg, fun q => ?_, ?_, fun c hc => h.queued c (List.mem_cons_of_mem _ hc)⟩
  · have hline := h.line q
    have hout : ¬ (s.pc q).Holds := fun hc => hl.not_intr hc (by rw [hi]; trivial)
    change Line _ rest q (s.pc q)
    generalize s.pc q = pc at hline hout
    cases pc with
    | idle => trivial
    | lock c => exact ⟨hline.1, fun hc => hline.2.1 (List.mem_cons_of_mem _ hc), hline.2.2⟩
    | asleep c =>
      refine ⟨hline.1, ?_⟩
      rcases hline.2 with hc | hc | hc
      · rcases List.mem_cons.mp hc with rfl | hc
        · exact .inr (.inl rfl)
        · exact .inl hc
      · simp [hi] at hc
      · simp [hi] at hc
    | woken c =>
      refine ⟨hline.1, ?_⟩
      rcases hline.2 with hc | hc | hc
      · rcases List.mem_cons.mp hc with rfl | hc
        · exact .inr (.inl rfl)
        · exact .inl hc
      · simp [hi] at hc
      · exact .inr (.inr hc)
    | _ => exact absurd trivial hout
  · obtain ⟨hsync, ha⟩ := h.queued b (List.mem_cons_self ..)
    exact ⟨hb, hsync, ha⟩

/-- **The buffer is transferred.** -/
theorem Queue.transfer [DecidableEq B] (h : Queue s Q) (hl : Locks s) (hi : s.intr = .transfer b)
    {x : Buf D} (hx : x.Synced) : Queue { s with buf := update s.buf b x, intr := .wake b } Q := by
  have hhand := h.handler
  rw [hi] at hhand
  obtain ⟨hb, hsync, q₀, hq₀, hw₀⟩ := hhand
  have hself : update s.buf b x b = x := update_self ..
  have hbuf : ∀ {c}, c ≠ b → update s.buf b x c = s.buf c := fun hc => update_of_ne hc _ _
  refine ⟨h.seg, fun q => ?_, ?_, fun c hc => ?_⟩
  · have hline := h.line q
    have hout : ¬ (s.pc q).Holds := fun hc => hl.not_intr hc (by rw [hi]; trivial)
    change Line _ Q q (s.pc q)
    cases hpc : s.pc q with
    | idle => trivial
    | lock c =>
      rw [hpc] at hline
      have hne : c ≠ b := by
        rintro rfl
        obtain rfl := Option.some.inj (hline.1.symm.trans hq₀)
        rw [hpc] at hw₀
        exact hw₀
      refine ⟨hline.1, hline.2.1, ?_⟩
      change ¬ (update s.buf b x c).Synced
      rw [hbuf hne]
      exact hline.2.2
    | asleep c =>
      rw [hpc] at hline
      refine ⟨hline.1, ?_⟩
      rcases hline.2 with hc | hc | hc
      · exact .inl hc
      · rw [hi] at hc
        obtain rfl := Intr.transfer.inj hc
        exact .inr (.inr rfl)
      · simp [hi] at hc
    | woken c =>
      rw [hpc] at hline
      refine ⟨hline.1, ?_⟩
      change c ∈ Q ∨ _ ∨ (update s.buf b x c).Synced
      by_cases hc : c = b
      · rw [hc, hself]
        exact .inr (.inr hx)
      · rw [hbuf hc]
        rcases hline.2 with hm | hm | hm
        · exact .inl hm
        · rw [hi] at hm
          exact absurd (Intr.transfer.inj hm).symm hc
        · exact .inr (.inr hm)
    | _ =>
      rw [hpc] at hout
      exact absurd trivial hout
  · refine ⟨?_, q₀, hq₀, hw₀⟩
    change (update s.buf b x b).Synced
    rw [hself]
    exact hx
  · obtain ⟨hns, ha⟩ := h.queued c hc
    refine ⟨?_, ha⟩
    change ¬ (update s.buf b x c).Synced
    rw [hbuf (by rintro rfl; exact hb hc)]
    exact hns

/-- **`wakeup`.** -/
theorem Queue.wakeup [DecidableEq B] (h : Queue s Q) (hi : s.intr = .wake b) :
    Queue { s with
      pc := fun p => if s.pc p = .asleep b then .woken b else s.pc p, intr := .next } Q := by
  have hhand := h.handler
  rw [hi] at hhand
  refine ⟨h.seg, fun q => ?_, trivial, fun c hc => ?_⟩
  · have hline := h.line q
    change Line _ Q q (if s.pc q = .asleep b then .woken b else s.pc q)
    split
    · rename_i hq
      rw [hq] at hline
      exact ⟨hline.1, .inr (.inr hhand.1)⟩
    · rename_i hq
      generalize s.pc q = pc at hline hq
      cases pc with
      | asleep c =>
        refine ⟨hline.1, .inl (hline.2.resolve_right fun hc => ?_)⟩
        rw [hi] at hc
        rcases hc with hc | hc
        · simp at hc
        · exact hq (congrArg Pc.asleep (Intr.wake.inj hc).symm)
      | woken c =>
        refine ⟨hline.1, hline.2.imp_right fun hc => .inr (hc.resolve_left ?_)⟩
        simp [hi]
      | _ => exact hline
  · obtain ⟨hns, q, hq, hw⟩ := h.queued c hc
    refine ⟨hns, q, hq, ?_⟩
    change Pc.Waits c (if s.pc q = .asleep b then .woken b else s.pc q)
    split
    · rename_i hpc
      rw [hpc] at hw
      exact hw
    · exact hw

end Intr

end Xv6.Ide
