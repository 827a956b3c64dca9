import Xv6Ipc.Log.Model
import Xv6Ipc.Machinery.Tally
import Xv6Ipc.Sync.Monitor

/-!
# Log/Operations — `begin_op`, `log_write` and `end_op` under `log.lock`

The log as a monitor.  Who may not begin sleeps on `&log`; `end_op` wakes it, at once or when the commit,
which runs outside of the lock, is done:

    idle ─▸ test ⇄ wait
              └─▸ working ⇄ log_write
                     └─▸ count ─▸ last ─▸ wakeup ─▸ idle             others are outstanding
                                    └─▸ commit ─▸ wakeup ─▸ idle     it was the last

A process calls `log_write` in an operation of its own.  `log_write` makes its two tests without the
lock, so the entry it then writes may lie past the end of `lh.block`; no other field of `struct log` is
behind it.
-/

namespace Xv6.Redo

/-- `log_write`, under the lock. -/
def Log.record (l : Log) (b : Nat) : Log :=
  { l with
    lh := ⟨if l.lh.find b = l.lh.n then l.lh.n + 1 else l.lh.n,
      Function.update l.lh.block (l.lh.find b) b⟩ }

/-- …is what `log_write` does when nobody comes between. -/
theorem logWrite_record {size b i : Nat} {l l' : Log} (h : logWrite size l b = .ok (i, l')) :
    l' = l.record b := by
  rw [logWrite] at h
  split at h
  · cases h
  split at h
  · cases h
  · exact (Prod.mk.inj (Except.ok.inj h)).2.symm

theorem Log.record_le (l : Log) (b : Nat) : l.lh.n ≤ (l.record b).lh.n := by
  rw [Log.record]
  split_ifs
  · exact Nat.le_succ _
  · exact le_rfl

end Xv6.Redo

namespace Xv6.LogOps

open Function
open Redo (Log MAXOPBLOCKS LOGSIZE)

/-! ## The code -/

inductive Lock where
  | ptable
  | log
  deriving DecidableEq

/-- The channel `&log`. -/
inductive Chan where
  | log
  deriving DecidableEq

/-- Where a process has panicked: in `log_write`, or at the test of `end_op`. -/
inductive Stop where
  | logWrite (w : Redo.Panic)
  | committing

/-- The control point of a process: outside of an operation (`idle`), in one (`working`), or before the
line the name says.  `beginOp` to `begun` are `begin_op`, `checkSize` to `logUnlock` are `log_write`;
from `endOp` on it is `end_op`, which has `commit` from `commit` to `eraseHead`. -/
inductive Ctl where
  | idle
  | beginOp
  | test
  | wait
  | begun
  | working
  | checkSize (b : Nat)
  | checkTrans (b : Nat)
  | logLock (b : Nat)
  | record (b : Nat)
  | logUnlock
  | endOp
  | count
  | checkCommit
  | last
  | endWake
  | endUnlock (doCommit : Bool)
  | commit
  | writeLog (tail : Nat)
  | writeHead
  | installTrans (tail : Nat)
  | clear
  | eraseHead
  | relock
  | reopen
  | reopenWake
  | reopenUnlock
  | panic (w : Stop)

/-- The lines about locks. -/
def line : Ctl → Monitor.Line Chan Ctl
  | .beginOp => .acquire .test
  | .wait => .sleep .log .test
  | .begun => .release .working
  | .logLock b => .acquire (.record b)
  | .logUnlock => .release .working
  | .endOp => .acquire .count
  | .endWake => .wakeup .log (.endUnlock false)
  | .endUnlock doCommit => .release (if doCommit then .commit else .idle)
  | .relock => .acquire .reopen
  | .reopenWake => .wakeup .log .reopenUnlock
  | .reopenUnlock => .release .idle
  | _ => .own

/-- Between `acquire(&log.lock)` and `release(&log.lock)`. -/
def inside : Ctl → Bool
  | .test => true
  | .wait => true
  | .begun => true
  | .record _ => true
  | .logUnlock => true
  | .count => true
  | .checkCommit => true
  | .last => true
  | .endWake => true
  | .endUnlock _ => true
  | .reopen => true
  | .reopenWake => true
  | .reopenUnlock => true
  | .panic .committing => true
  | _ => false

/-- The other lines, where the code goes on by itself.  What `commit` reads and writes through the buffer
cache leaves `struct log` alone. -/
def own (size : Nat) (d : Log) : Ctl → Option (Log × Ctl)
  | .test => some <|
    if d.committing = true then (d, .wait)
    -- This operation might exhaust the log: it waits for a commit.
    else if d.lh.n + (d.outstanding + 1) * MAXOPBLOCKS > LOGSIZE then (d, .wait)
    else ({ d with outstanding := d.outstanding + 1 }, .begun)
  | .checkSize b => some
    (d, if LOGSIZE ≤ d.lh.n ∨ size ≤ d.lh.n + 1 then .panic (.logWrite .tooBig) else .checkTrans b)
  | .checkTrans b => some
    (d, if d.outstanding < 1 then .panic (.logWrite .outsideTrans) else .logLock b)
  | .record b => some (d.record b, .logUnlock)
  | .count => some ({ d with outstanding := d.outstanding - 1 }, .checkCommit)
  | .checkCommit => some (d, if d.committing = true then .panic .committing else .last)
  | .last => some <|
    if d.outstanding = 0 then ({ d with committing := true }, .endUnlock true) else (d, .endWake)
  | .commit => some (d, if 0 < d.lh.n then .writeLog 0 else .relock)
  | .writeLog tail => some (d, if tail < d.lh.n then .writeLog (tail + 1) else .writeHead)
  | .writeHead => some (d, .installTrans 0)
  | .installTrans tail => some (d, if tail < d.lh.n then .installTrans (tail + 1) else .clear)
  | .clear => some (d.clear, .eraseHead)
  | .eraseHead => some (d, .relock)
  | .reopen => some ({ d with committing := false }, .reopenWake)
  | _ => none

/-- **A turn**: a line of the code, or a call. -/
inductive Turn (size : Nat) : Log → Ctl → Log → Ctl → Prop
  | beginOp {d} : Turn size d .idle d .beginOp
  | logWrite {d} (b : Nat) : Turn size d .working d (.checkSize b)
  | endOp {d} : Turn size d .working d .endOp
  | own {d k d' k'} : own size d k = some (d', k') → Turn size d k d' k'

/-! ## What a turn does -/

/-- What a process is to the log: in an operation, between the line that counts it out and the end of
its test for the last, committing, or done with the transaction. -/
inductive Part where
  | op
  | ending
  | commit
  | cleared
  deriving DecidableEq

def Ctl.part : Ctl → Option Part
  | .begun => some .op
  | .working => some .op
  | .checkSize _ => some .op
  | .checkTrans _ => some .op
  | .logLock _ => some .op
  | .record _ => some .op
  | .logUnlock => some .op
  | .endOp => some .op
  | .count => some .op
  | .panic (.logWrite _) => some .op
  | .checkCommit => some .ending
  | .last => some .ending
  | .panic .committing => some .ending
  | .endUnlock true => some .commit
  | .commit => some .commit
  | .writeLog _ => some .commit
  | .writeHead => some .commit
  | .installTrans _ => some .commit
  | .clear => some .commit
  | .eraseHead => some .cleared
  | .relock => some .cleared
  | .reopen => some .cleared
  | _ => none

/-- `wakeup(&log)` is to come before the lock is dropped. -/
def owes : Ctl → Bool
  | .checkCommit => true
  | .last => true
  | .endWake => true
  | .reopenWake => true
  | _ => false

/-- **What a turn does to the log**: nothing, or one of these. -/
inductive Effect (d : Log) : Ctl → Log → Ctl → Prop
  | quiet {k k'} : k'.part = k.part → inside k' = inside k →
    (owes k = true → owes k' = true ∨ d.committing = true) →
    (k' = .wait → ¬ d.Admits) → (k' = .panic .committing → d.committing = true) → Effect d k d k'
  | enter : d.Admits → Effect d .test { d with outstanding := d.outstanding + 1 } .begun
  | record (b : Nat) : Effect d (.record b) (d.record b) .logUnlock
  | count : Effect d .count { d with outstanding := d.outstanding - 1 } .checkCommit
  | last : d.outstanding = 0 → Effect d .last { d with committing := true } (.endUnlock true)
  | more : d.outstanding ≠ 0 → Effect d .last d .endWake
  | empty : d.lh.n = 0 → Effect d .commit d .relock
  | clear : Effect d .clear d.clear .eraseHead
  | reopen : Effect d .reopen { d with committing := false } .reopenWake

variable {size : Nat} {d d' : Log} {k k' : Ctl}

/-- A turn that only moves on. -/
theorem Effect.move (hpart : k'.part = k.part) (hin : inside k' = inside k) (howes : owes k = false)
    (hwait : k' ≠ .wait) (hstop : k' ≠ .panic .committing) : Effect d k d k' :=
  .quiet hpart hin (fun h => by simp [howes] at h) (fun h => absurd h hwait) fun h => absurd h hstop

theorem Effect.of_test {x : Log × Ctl} (h : own size d .test = some x) : Effect d .test x.1 x.2 := by
  obtain rfl := Option.some.inj h
  split_ifs with hcommit hfull
  · exact .quiet rfl rfl (by simp [owes]) (fun _ hadm => by simp [hadm.1] at hcommit) (by simp)
  · exact .quiet rfl rfl (by simp [owes]) (fun _ hadm => Nat.not_le.mpr hfull hadm.2) (by simp)
  · exact .enter ⟨by simpa using hcommit, Nat.not_lt.mp hfull⟩

theorem Turn.effect (h : Turn size d k d' k') : Effect d k d' k' := by
  cases h with
  | beginOp | logWrite b | endOp => exact .move rfl rfl rfl (by simp) (by simp)
  | own h =>
    cases k with
    | test => exact .of_test h
    | record b =>
      obtain ⟨rfl, rfl⟩ := Prod.mk.inj (Option.some.inj h)
      exact .record b
    | count =>
      obtain ⟨rfl, rfl⟩ := Prod.mk.inj (Option.some.inj h)
      exact .count
    | checkCommit =>
      obtain ⟨rfl, rfl⟩ := Prod.mk.inj (Option.some.inj h)
      split_ifs with hcommit
      · exact .quiet rfl rfl (fun _ => .inr hcommit) (by simp) fun _ => hcommit
      · exact .quiet rfl rfl (fun _ => .inl rfl) (by simp) (by simp)
    | last =>
      have h := Option.some.inj h
      split_ifs at h with hlast
      · obtain ⟨rfl, rfl⟩ := Prod.mk.inj h
        exact .last hlast
      · obtain ⟨rfl, rfl⟩ := Prod.mk.inj h
        exact .more hlast
    | commit =>
      obtain ⟨rfl, rfl⟩ := Prod.mk.inj (Option.some.inj h)
      split_ifs with hpos
      · exact .move rfl rfl rfl (by simp) (by simp)
      · exact .empty (Nat.eq_zero_of_not_pos hpos)
    | clear =>
      obtain ⟨rfl, rfl⟩ := Prod.mk.inj (Option.some.inj h)
      exact .clear
    | reopen =>
      obtain ⟨rfl, rfl⟩ := Prod.mk.inj (Option.some.inj h)
      exact .reopen
    | checkSize b | checkTrans b | writeLog tail | installTrans tail =>
      obtain ⟨rfl, rfl⟩ := Prod.mk.inj (Option.some.inj h)
      split_ifs <;> exact .move rfl rfl rfl (by simp) (by simp)
    | writeHead | eraseHead =>
      obtain ⟨rfl, rfl⟩ := Prod.mk.inj (Option.some.inj h)
      exact .move rfl rfl rfl (by simp) (by simp)
    | _ => exact nomatch h

/-- No turn takes the lock or drops it. -/
theorem Turn.inside_eq (h : Turn size d k d' k') : inside k' = inside k := by
  cases h.effect with
  | quiet _ hin => exact hin
  | _ => rfl

/-- **The log as a monitor.** -/
def code (size : Nat) : Monitor.Code Lock Chan Ctl Log where
  ptable := .ptable
  lock := .log
  lock_ne := by decide
  line := line
  inside := inside
  turn := Turn size
  acquires := fun {k _} h => by cases k <;> first | rfl | exact nomatch h
  releases := fun {k k'} h => by
    cases k with
    | begun | logUnlock | reopenUnlock => exact ⟨rfl, by cases h; rfl⟩
    | endUnlock doCommit => exact ⟨rfl, by cases h; cases doCommit <;> rfl⟩
    | _ => exact nomatch h
  sleeps := fun {k _ _} h => by cases k <;> first | rfl | exact nomatch h
  wakes := fun {k _ _} h => by cases k <;> first | rfl | exact nomatch h
  turns := fun _ h => h.inside_eq

abbrev State (n : Nat) := Monitor.State n Lock Chan Ctl Log

/-- After `initlog`: nothing outstanding, nothing logged, nobody in the log's functions. -/
structure Start {n : Nat} (s : State n) : Prop where
  sys : Sleep.Start s.sys
  outstanding : s.data.outstanding = 0
  committing : s.data.committing = false
  empty : s.data.lh.n = 0
  ctl : ∀ p, s.ctl p = .idle

/-- A line about locks does not change what a process is to the log. -/
theorem part_next (h : (line k).next = some k') : k'.part = k.part := by
  cases k with
  | endUnlock doCommit => cases doCommit <;> cases h <;> rfl
  | _ => cases h <;> rfl

/-! ## Who is in the log -/

open Tally (places)

variable {n : Nat} {r : Fin n → Option Part} {p q : Fin n}

/-- **The log knows who is in it**: `outstanding` counts the operations and `committing` the process that
commits, which is the only one then; what was logged is gone when it is done. -/
structure Census (d : Log) (r : Fin n → Option Part) : Prop where
  ops : places r .op = d.outstanding
  commits : places r .commit + places r .cleared = d.committing.toNat
  apart : d.committing = true → d.outstanding = 0
  ending : ∀ p, r p = some .ending → d.committing = false
  cleared : ∀ p, r p = some .cleared → d.lh.n = 0
  fresh : d.outstanding = 0 → d.committing = false → (∀ p, r p ≠ some .ending) → d.lh.n = 0

theorem Census.outstanding_pos (h : Census d r) (hp : r p = some .op) : 0 < d.outstanding := by
  rw [← h.ops]
  exact Tally.places_pos hp

/-- While somebody is in an operation nobody commits. -/
theorem Census.not_committing (h : Census d r) (hp : r p = some .op) : d.committing = false := by
  have hpos := h.outstanding_pos hp
  by_contra hcommit
  rw [h.apart (by simpa using hcommit)] at hpos
  exact Nat.lt_irrefl 0 hpos

theorem Census.committing (h : Census d r) (hp : r p = some .commit ∨ r p = some .cleared) :
    d.committing = true := by
  have hpos : 0 < d.committing.toNat := by
    rw [← h.commits]
    rcases hp with hp | hp
    · exact Nat.add_pos_left (Tally.places_pos hp) _
    · exact Nat.add_pos_right _ (Tally.places_pos hp)
  by_contra hno
  simp [show d.committing = false by simpa using hno] at hpos

/-- **One process at a time commits.** -/
theorem Census.unique (h : Census d r) (hp : r p = some .commit ∨ r p = some .cleared)
    (hq : r q = some .commit ∨ r q = some .cleared) : p = q := by
  have hone := Bool.toNat_le d.committing
  rw [← h.commits] at hone
  by_contra hne
  rcases hp with hp | hp <;> rcases hq with hq | hq
  · have htwo := Tally.two_le_places hne hp hq
    omega
  · have hfirst := Tally.places_pos hp
    have hsecond := Tally.places_pos hq
    omega
  · have hfirst := Tally.places_pos hp
    have hsecond := Tally.places_pos hq
    omega
  · have htwo := Tally.two_le_places hne hp hq
    omega

/-- Somebody is behind each count. -/
theorem Census.exists_op (h : Census d r) (hpos : 0 < d.outstanding) : ∃ p, r p = some .op :=
  Tally.exists_of_places (h.ops ▸ hpos)

theorem Census.exists_commit (h : Census d r) (hcommit : d.committing = true) :
    ∃ p, r p = some .commit ∨ r p = some .cleared := by
  have hsum := h.commits
  rw [hcommit] at hsum
  rcases Nat.eq_zero_or_pos (places r .commit) with hzero | hpos
  · obtain ⟨p, hp⟩ := Tally.exists_of_places (g := r) (a := .cleared) (by simp at hsum; omega)
    exact ⟨p, .inr hp⟩
  · obtain ⟨p, hp⟩ := Tally.exists_of_places hpos
    exact ⟨p, .inl hp⟩

/-! One process changes its part at a time. -/

theorem eq_some_of_update {x : Option Part} {y : Part} (h : update r p x q = some y) :
    x = some y ∨ q ≠ p ∧ r q = some y := by
  by_cases hq : q = p
  · rw [hq, update_self] at h
    exact .inl h
  · rw [update_of_ne hq] at h
    exact .inr ⟨hq, h⟩

/-- Who has a part that is not the new one had it before. -/
theorem before_of_update {x : Option Part} {y : Part} (h : update r p x q = some y)
    (hx : x ≠ some y) : r q = some y :=
  (eq_some_of_update h).elim (fun h => absurd h hx) And.right

theorem places_update_of_eq {x y : Option Part} (hr : r p = x) (a : Part) :
    places (update r p y) a + Tally.mark x a = places r a + Tally.mark y a :=
  hr ▸ Tally.places_update r p y a

theorem Census.enter (h : Census d r) (hr : r p = none) (hadm : d.Admits) :
    Census { d with outstanding := d.outstanding + 1 } (update r p (some .op)) := by
  have hop := places_update_of_eq (y := some .op) hr .op
  have hcommit := places_update_of_eq (y := some .op) hr .commit
  have hclear := places_update_of_eq (y := some .op) hr .cleared
  simp [Tally.mark] at hop hcommit hclear
  refine ⟨?_, ?_, fun hc => ?_, fun q _ => hadm.1, fun q hq => ?_, fun hzero => ?_⟩
  · rw [hop, h.ops]
  · rw [hcommit, hclear, h.commits]
  · simp [hadm.1] at hc
  · exact h.cleared q (before_of_update hq (by simp))
  · simp at hzero

theorem Census.record (h : Census d r) (hr : r p = some .op) (b : Nat) : Census (d.record b) r := by
  refine ⟨h.ops, h.commits, h.apart, fun q _ => h.not_committing hr, fun q hq => ?_, fun hzero => ?_⟩
  · simpa [h.not_committing hr] using h.committing (.inr hq)
  · exact absurd hzero (h.outstanding_pos hr).ne'

theorem Census.count (h : Census d r) (hr : r p = some .op) :
    Census { d with outstanding := d.outstanding - 1 } (update r p (some .ending)) := by
  have hopen := h.not_committing hr
  have hop := places_update_of_eq (y := some .ending) hr .op
  have hcommit := places_update_of_eq (y := some .ending) hr .commit
  have hclear := places_update_of_eq (y := some .ending) hr .cleared
  simp [Tally.mark] at hop hcommit hclear
  refine ⟨?_, ?_, fun hc => ?_, fun q _ => hopen, fun q hq => ?_, fun _ _ hno => ?_⟩
  · rw [← h.ops, ← hop, Nat.add_sub_cancel]
  · rw [hcommit, hclear, h.commits]
  · simp [hopen] at hc
  · exact h.cleared q (before_of_update hq (by simp))
  · exact absurd (update_self ..) (hno p)

theorem Census.last (h : Census d r) (hr : r p = some .ending) (hzero : d.outstanding = 0)
    (hone : ∀ q, r q = some .ending → q = p) :
    Census { d with committing := true } (update r p (some .commit)) := by
  have hop := places_update_of_eq (y := some .commit) hr .op
  have hcommit := places_update_of_eq (y := some .commit) hr .commit
  have hclear := places_update_of_eq (y := some .commit) hr .cleared
  simp [Tally.mark] at hop hcommit hclear
  have hcommits := h.commits
  rw [h.ending p hr] at hcommits
  refine ⟨?_, ?_, fun _ => hzero, fun q hq => ?_, fun q hq => ?_, fun _ hc => ?_⟩
  · rw [hop, h.ops]
  · rw [hcommit, hclear, Nat.add_right_comm, hcommits]
    rfl
  · rcases eq_some_of_update hq with hq | ⟨hne, hq⟩
    · simp at hq
    · exact absurd (hone q hq) hne
  · exact h.cleared q (before_of_update hq (by simp))
  · simp at hc

theorem Census.more (h : Census d r) (hr : r p = some .ending) (hpos : d.outstanding ≠ 0) :
    Census d (update r p none) := by
  have hop := places_update_of_eq (y := none) hr .op
  have hcommit := places_update_of_eq (y := none) hr .commit
  have hclear := places_update_of_eq (y := none) hr .cleared
  simp [Tally.mark] at hop hcommit hclear
  refine ⟨?_, ?_, h.apart, fun q _ => h.ending p hr, fun q hq => ?_, fun hzero => absurd hzero hpos⟩
  · rw [hop, h.ops]
  · rw [hcommit, hclear, h.commits]
  · exact h.cleared q (before_of_update hq (by simp))

/-- The transaction is written, or there was none. -/
theorem Census.clear (h : Census d r) (hr : r p = some .commit) (hout : d'.outstanding = d.outstanding)
    (hcom : d'.committing = d.committing) (hn : d'.lh.n = 0) :
    Census d' (update r p (some .cleared)) := by
  have hop := places_update_of_eq (y := some .cleared) hr .op
  have hcommit := places_update_of_eq (y := some .cleared) hr .commit
  have hclear := places_update_of_eq (y := some .cleared) hr .cleared
  simp [Tally.mark] at hop hcommit hclear
  refine ⟨?_, ?_, ?_, fun q hq => ?_, fun _ _ => hn, fun _ _ _ => hn⟩
  · rw [hop, h.ops, hout]
  · rw [hcom, ← h.commits, ← hcommit, hclear, Nat.add_right_comm, Nat.add_assoc]
  · rw [hcom, hout]
    exact h.apart
  · rw [hcom]
    exact h.ending q (before_of_update hq (by simp))

theorem Census.reopen (h : Census d r) (hr : r p = some .cleared) :
    Census { d with committing := false } (update r p none) := by
  have hop := places_update_of_eq (y := none) hr .op
  have hcommit := places_update_of_eq (y := none) hr .commit
  have hclear := places_update_of_eq (y := none) hr .cleared
  simp [Tally.mark] at hop hcommit hclear
  have hcommits := h.commits
  rw [h.committing (.inr hr), ← hclear, Bool.toNat_true] at hcommits
  refine ⟨?_, ?_, fun hc => ?_, fun _ _ => rfl, fun q hq => ?_, fun _ _ _ => h.cleared p hr⟩
  · rw [hop, h.ops]
  · rw [hcommit, Bool.toNat_false]
    omega
  · simp at hc
  · exact h.cleared q (before_of_update hq (by simp))

/-- **A turn keeps the census**, if one process at a time is ending. -/
theorem Census.turn (h : Census d r) (hr : r p = k.part) (he : Effect d k d' k')
    (hone : r p = some .ending → ∀ q, r q = some .ending → q = p) :
    Census d' (update r p k'.part) := by
  have hstay : ∀ {d}, Census d r → k'.part = k.part → Census d (update r p k'.part) := by
    intro d h hpart
    rwa [hpart, ← hr, update_eq_self]
  cases he with
  | quiet hpart => exact hstay h hpart
  | enter hadm => exact h.enter hr hadm
  | record b => exact hstay (h.record hr b) rfl
  | count => exact h.count hr
  | last hzero => exact h.last hr hzero (hone hr)
  | more hpos => exact h.more hr hpos
  | empty hn => exact h.clear hr rfl rfl hn
  | clear => exact h.clear hr rfl rfl rfl
  | reopen => exact h.reopen hr

end Xv6.LogOps
