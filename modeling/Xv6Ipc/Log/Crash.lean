import Xv6Ipc.Log.Model

/-!
# Log/Crash — transactions are atomic, whenever the machine crashes

The contents a disk stands for are those after all transactions whose header has reached it.  At any
moment the disk is one replay away from them:

    d (h.block i)        anything          for the entries of the header h on the disk
    d (start + 1 + i)    the contents of h.block i
    d b                  the contents of b          elsewhere, outside of the log

A header with no entries makes this the contents themselves.
-/

namespace Xv6.Redo

open Function

variable {g : Geom} {s s' : State} {a : Act} {d d₀ : Nat → Block}

/-- The contents after some writes. -/
def applyTo (d : Nat → Block) (ws : List Write) : Nat → Block :=
  ws.foldl (fun d w => update d w.block w.data) d

theorem applyTo_append (ws ws' : List Write) : applyTo d (ws ++ ws') = applyTo (applyTo d ws) ws' :=
  List.foldl_append

theorem applyTo_of_not_mem {ws : List Write} {b : Nat} (h : ∀ w ∈ ws, w.block ≠ b) :
    applyTo d ws b = d b := by
  induction ws generalizing d with
  | nil => rfl
  | cons w ws ih =>
    have hne : b ≠ w.block := (h w (List.mem_cons_self ..)).symm
    rw [applyTo, List.foldl_cons, ← applyTo, ih fun w' hw' => h w' (List.mem_cons_of_mem _ hw'),
      update_of_ne hne]

/-- `b` is an entry of the header. -/
def Header.Has (h : Header) (b : Nat) : Prop := ∃ i < h.n, h.block i = b

/-- **One replay away** from contents `T`, of which the first `tail` blocks are done. -/
structure Replayable (g : Geom) (T : Nat → Block) (d : Nat → Block) (h : Header) (tail : Nat) : Prop where
  size : h.n = 0 ∨ h.n < g.size
  out : ∀ i < h.n, ¬ g.InLog (h.block i)
  log : ∀ i < h.n, d (g.start + i + 1) = T (h.block i)
  rest : ∀ b, ¬ g.InLog b → ¬ h.Has b → d b = T b
  home : ∀ i < tail, i < h.n → d (h.block i) = T (h.block i)

/-- The same entries. -/
structure Header.Same (h h' : Header) : Prop where
  n : h'.n = h.n
  block : ∀ i < h.n, h'.block i = h.block i

theorem Replayable.congr {T : Nat → Block} {h h' : Header} {tail : Nat}
    (hr : Replayable g T d h tail) (hs : h.Same h') : Replayable g T d h' tail := by
  have hb : ∀ i < h'.n, i < h.n ∧ h'.block i = h.block i := fun i hi =>
    ⟨hs.n ▸ hi, hs.block i (hs.n ▸ hi)⟩
  refine ⟨?_, fun i hi => ?_, fun i hi => ?_, fun b hb' hno => hr.rest b hb' ?_, fun i ht hi => ?_⟩
  · rw [hs.n]
    exact hr.size
  · obtain ⟨hi, heq⟩ := hb i hi
    rw [heq]
    exact hr.out i hi
  · obtain ⟨hi, heq⟩ := hb i hi
    rw [heq]
    exact hr.log i hi
  · rintro ⟨i, hi, rfl⟩
    exact hno ⟨i, hs.n ▸ hi, hs.block i hi⟩
  · obtain ⟨hi, heq⟩ := hb i hi
    rw [heq]
    exact hr.home i ht hi

/-- Starting over. -/
theorem Replayable.again {T : Nat → Block} {h : Header} {tail : Nat} (hr : Replayable g T d h tail) :
    Replayable g T d h 0 :=
  ⟨hr.size, hr.out, hr.log, hr.rest, fun _ hi => absurd hi (Nat.not_lt_zero _)⟩

/-- **Copying a block home.** -/
theorem Replayable.install {T : Nat → Block} {h : Header} {tail : Nat}
    (hr : Replayable g T d h tail) (ht : tail < h.n) :
    Replayable g T (update d (h.block tail) (T (h.block tail))) h (tail + 1) := by
  have hout := hr.out tail ht
  refine ⟨hr.size, hr.out, fun i hi => ?_, fun b hb hno => ?_, fun i hi hi' => ?_⟩
  · have hsize := hr.size
    rw [update_of_ne, hr.log i hi]
    rintro heq
    exact hout ⟨by omega, by omega⟩
  · rw [update_of_ne, hr.rest b hb hno]
    rintro rfl
    exact hno ⟨tail, ht, rfl⟩
  · by_cases heq : h.block i = h.block tail
    · rw [heq, update_self]
    · have hne : i ≠ tail := fun h => heq (by rw [h])
      rw [update_of_ne heq, hr.home i (by omega) hi']

/-- **All copied**: outside of the log these are the contents. -/
theorem Replayable.contents {T : Nat → Block} {h : Header} {tail b : Nat}
    (hr : Replayable g T d h tail) (ht : h.n ≤ tail) (hb : ¬ g.InLog b) : d b = T b := by
  by_cases hin : h.Has b
  · obtain ⟨i, hi, rfl⟩ := hin
    exact hr.home i (by omega) hi
  · exact hr.rest b hb hin

/-- An empty header makes it the contents. -/
theorem Replayable.of_contents {T : Nat → Block} {h : Header} {tail : Nat} (hn : h.n = 0)
    (hd : ∀ b, ¬ g.InLog b → d b = T b) : Replayable g T d h tail :=
  ⟨.inl hn, fun i hi => by omega, fun i hi => by omega, fun b hb _ => hd b hb, fun i _ hi => by omega⟩

/-! ## The header on the disk -/

theorem getHeader_putHeader (h : Header) (x : Block) : h.Same (getHeader (putHeader h x)) := by
  refine ⟨rfl, fun i hi => ?_⟩
  change putHeader h x (i + 1) = h.block i
  rw [putHeader, if_neg (Nat.succ_ne_zero i), if_pos (Nat.succ_le_of_lt hi), Nat.add_sub_cancel]

theorem Geom.inLog_start (g : Geom) : g.InLog g.start := ⟨le_rfl, Nat.lt_add_of_pos_right g.pos⟩

/-! ## The buffer cache -/

/-- Buffers that are not dirty are as on the disk, and those that are are pinned. -/
structure Cached (g : Geom) (s : State) : Prop where
  clean : ∀ b x, s.cache b = some x → s.dirty b = false → x = s.disk b
  pinned : ∀ b, s.dirty b = true → s.cache b ≠ none ∧ ¬ g.InLog b

theorem Cached.bread_clean (h : Cached g s) {b : Nat} (hb : s.dirty b = false) :
    s.bread b = s.disk b := by
  rw [State.bread]
  cases hc : s.cache b with
  | none => rfl
  | some x => exact h.clean b x hc hb

theorem Cached.bread_log (h : Cached g s) {b : Nat} (hb : g.InLog b) : s.bread b = s.disk b := by
  refine h.bread_clean ?_
  by_contra hd
  exact (h.pinned b (by simpa using hd)).2 hb

theorem Cached.bwrite (h : Cached g s) (b : Nat) (x : Block) : Cached g (s.bwrite b x) := by
  refine ⟨fun b' x' hc hd => ?_, fun b' hd => ?_⟩
  · by_cases hb : b' = b
    · subst hb
      simpa [State.bwrite, eq_comm] using hc
    · simp only [State.bwrite, update_of_ne hb] at hc hd ⊢
      exact h.clean b' x' hc hd
  · by_cases hb : b' = b
    · simp [State.bwrite, hb] at hd
    · simp only [State.bwrite, update_of_ne hb] at hd ⊢
      exact h.pinned b' hd

theorem bread_bwrite_self (s : State) (b : Nat) (x : Block) : (s.bwrite b x).bread b = x := by
  simp [State.bread, State.bwrite]

theorem bread_bwrite_of_ne {b b' : Nat} (h : b' ≠ b) (x : Block) :
    (s.bwrite b x).bread b' = s.bread b' := by
  simp [State.bread, State.bwrite, update_of_ne h]

/-! ## Mode by mode -/

/-- While a transaction is open the disk has the contents before it, and the cache those after. -/
structure Open (g : Geom) (T : Nat → Block) (s : State) : Prop where
  head : (getHeader (s.disk g.start)).n = 0
  home : ∀ b, ¬ g.InLog b → s.disk b = T b
  view : ∀ b, ¬ g.InLog b → s.bread b = applyTo T s.pending b
  named : ∀ w ∈ s.pending, s.log.lh.Has w.block
  out : ∀ i < s.log.lh.n, ¬ g.InLog (s.log.lh.block i)
  size : s.log.lh.n = 0 ∨ s.log.lh.n < g.size

/-- …and when its header is on the disk both are those after it, once it is copied home. -/
structure Installing (g : Geom) (T : Nat → Block) (s : State) (tail : Nat) : Prop where
  same : s.log.lh.Same (getHeader (s.disk g.start))
  replay : Replayable g T s.disk s.log.lh tail
  view : ∀ b, ¬ g.InLog b → s.bread b = T b
  pending : s.pending = []

/-- After a crash there is nothing but the disk. -/
structure Recovering (g : Geom) (T : Nat → Block) (s : State) (h : Header) (tail : Nat) : Prop where
  same : h.Same (getHeader (s.disk g.start))
  replay : Replayable g T s.disk h tail
  clean : ∀ b, s.dirty b = false
  pending : s.pending = []

/-- **The disk and the cache, in each mode.** -/
def OnDisk (g : Geom) (T : Nat → Block) (s : State) : Mode → Prop
  | .running => Open g T s
  | .writeLog tail => Open g T s ∧ ∀ i < tail, i < s.log.lh.n →
      s.disk (g.start + i + 1) = applyTo T s.pending (s.log.lh.block i)
  | .install tail => Installing g T s tail
  | .down => Recovering g T s (getHeader (s.disk g.start)) 0
  | .replay tail => Recovering g T s s.log.lh tail

/-- **In every mode the disk can be replayed.** -/
theorem OnDisk.replayable {T : Nat → Block} (h : OnDisk g T s s.mode) :
    Replayable g T s.disk (getHeader (s.disk g.start)) 0 := by
  cases hm : s.mode with
  | running =>
    rw [hm] at h
    exact .of_contents h.head h.home
  | writeLog tail =>
    rw [hm] at h
    exact .of_contents h.1.head h.1.home
  | install tail | replay tail =>
    rw [hm] at h
    exact h.replay.again.congr h.same
  | down =>
    rw [hm] at h
    exact h.replay.again

/-! ## Calls in progress -/

/-- In `commit`. -/
def Mode.commits : Mode → Bool
  | .running => false
  | .writeLog _ => true
  | .install _ => true
  | .down => false
  | .replay _ => false

/-- The calls that `outstanding` counts; none is in progress while the log commits. -/
structure Ids (s : State) : Prop where
  outstanding : s.log.outstanding = s.ops.length
  nodup : s.ops.Nodup
  fresh : ∀ op ∈ s.ops, op < s.next
  old : ∀ w ∈ s.issued, w.op < s.next
  idle : s.mode ≠ .running → s.ops = []
  committing : s.log.committing = s.mode.commits
  record : ∀ w ∈ s.done ++ s.pending, w ∈ s.issued

theorem Start.ids (h : Start g d s) : Ids s := by
  refine ⟨?_, ?_, ?_, ?_, fun _ => h.ops, ?_, ?_⟩
  · rw [h.log, h.ops]
    rfl
  · simp [h.ops]
  · simp [h.ops]
  · simp [h.issued]
  · rw [h.log, h.mode]
    rfl
  · simp [h.done, h.pending]

theorem Ids.running (h : Ids s) {op : Nat} (hop : op ∈ s.ops) : s.mode = .running := by
  by_contra hm
  simp [h.idle hm] at hop

/-- Calls begin while nothing commits. -/
theorem Ids.running_of_admits (h : Ids s) (hup : s.mode.up = true) (hadm : s.log.Admits) :
    s.mode = .running := by
  have hcom : s.mode.commits = false := h.committing ▸ hadm.1
  cases hm : s.mode <;> simp_all [Mode.up, Mode.commits]

section EndOp

variable (s : State) (op : Nat)

theorem endOp_ops : (s.endOp op).ops = s.ops.erase op := by
  rw [State.endOp]
  split <;> rfl

theorem endOp_issued : (s.endOp op).issued = s.issued := by
  rw [State.endOp]
  split <;> rfl

theorem endOp_pending : (s.endOp op).pending = s.pending := by
  rw [State.endOp]
  split <;> rfl

theorem endOp_done : (s.endOp op).done = s.done := by
  rw [State.endOp]
  split <;> rfl

end EndOp

theorem Ids.endOp (h : Ids s) {op : Nat} (hop : op ∈ s.ops) : Ids (s.endOp op) := by
  have hm := h.running hop
  have hlen := List.length_erase_of_mem hop
  have hnodup := h.nodup.erase op
  have hfresh : ∀ op' ∈ s.ops.erase op, op' < s.next := fun op' h' =>
    h.fresh op' (List.mem_of_mem_erase h')
  have hout : s.log.outstanding - 1 = (s.ops.erase op).length := by rw [hlen, h.outstanding]
  rw [State.endOp]
  split
  · next hlast =>
    have hnil : s.ops.erase op = [] := List.eq_nil_of_length_eq_zero (hout ▸ hlast)
    exact ⟨hout, hnodup, hfresh, h.old, fun _ => hnil, rfl, h.record⟩
  · exact ⟨hout, hnodup, hfresh, h.old, fun hne => absurd hm hne, h.committing, h.record⟩

/-- Other lines leave the calls alone. -/
theorem Ids.move (h : Ids s) (hops : s'.ops = s.ops) (hnext : s'.next = s.next)
    (hissued : s'.issued = s.issued) (hout : s'.log.outstanding = s.log.outstanding)
    (hidle : s'.mode ≠ .running → s.mode ≠ .running) (hcom : s'.log.committing = s'.mode.commits)
    (hrec : s'.done ++ s'.pending = s.done ++ s.pending) : Ids s' := by
  refine ⟨?_, ?_, ?_, ?_, fun hne => ?_, hcom, ?_⟩
  · rw [hops, hout]
    exact h.outstanding
  · rw [hops]
    exact h.nodup
  · rw [hops, hnext]
    exact h.fresh
  · rw [hissued, hnext]
    exact h.old
  · rw [hops]
    exact h.idle (hidle hne)
  · rw [hrec, hissued]
    exact h.record

theorem Ids.step (h : Ids s) (hstep : Step g s a s') : Ids s' := by
  have hcom := h.committing
  cases hstep with
  | begin hup hadm =>
    have hm := h.running_of_admits hup hadm
    refine ⟨?_, ?_, ?_, fun w hw => ?_, fun hne => absurd hm hne, hcom, h.record⟩
    · simp [h.outstanding]
    · exact List.nodup_cons.mpr ⟨fun hin => absurd (h.fresh _ hin) (Nat.lt_irrefl _), h.nodup⟩
    · intro op hop
      rcases List.mem_cons.mp hop with rfl | hop
      · exact Nat.lt_succ_self _
      · exact Nat.lt_succ_of_lt (h.fresh op hop)
    · exact Nat.lt_succ_of_lt (h.old w hw)
  | write hup hop _ hw =>
    have hl := logWrite_ok hw
    refine ⟨hl.outstanding.trans h.outstanding, h.nodup, h.fresh, fun w hw => ?_, h.idle,
      hl.committing.trans hcom, fun w hw => ?_⟩
    · rcases List.mem_append.mp hw with hw | hw
      · exact h.old w hw
      · rw [List.mem_singleton.mp hw]
        exact h.fresh _ hop
    · rw [← List.append_assoc, List.mem_append] at hw
      exact List.mem_append.mpr (hw.imp_left (h.record w))
  | finish hup hop => exact h.endOp hop
  | load | evict => exact h.move rfl rfl rfl rfl id hcom rfl
  | logBlock hm _ | installBlock hm _ | boot hm | replayBlock hm _ =>
    exact h.move rfl rfl rfl rfl (by simp [hm]) (hcom.trans (by rw [hm]; rfl)) rfl
  | logHead hm _ =>
    exact h.move rfl rfl rfl rfl (by simp [hm]) (hcom.trans (by rw [hm]; rfl)) (List.append_nil _)
  | logNone | installHead => exact h.move rfl rfl rfl rfl (by simp) rfl rfl
  | crash =>
    refine ⟨rfl, List.nodup_nil, by simp [State.crash], h.old, fun _ => rfl, rfl, fun w hw => ?_⟩
    rw [State.crash, List.append_nil] at hw
    exact h.record w (List.mem_append_left _ hw)
  | replayHead hm => exact h.move rfl rfl rfl rfl (by simp) (hcom.trans (by rw [hm]; rfl)) rfl

/-! ## Every call whole or not at all -/

/-- The writes of a call. -/
def writesOf (op : Nat) (ws : List Write) : List Write := ws.filter (·.op = op)

/-- **A call is in the open transaction with all its writes**, or it is over, and all its writes are on
the disk or none. -/
def Whole (s : State) (op : Nat) : Prop :=
  (writesOf op s.done = [] ∧ writesOf op s.pending = writesOf op s.issued)
    ∨ op ∉ s.ops ∧ writesOf op s.pending = []
      ∧ (writesOf op s.done = [] ∨ writesOf op s.done = writesOf op s.issued)

theorem writesOf_append (op : Nat) (ws ws' : List Write) :
    writesOf op (ws ++ ws') = writesOf op ws ++ writesOf op ws' := List.filter_append ..

/-- Other lines do not touch the record. -/
theorem Whole.move {op : Nat} (h : Whole s op) (hops : ∀ op ∈ s'.ops, op ∈ s.ops)
    (hissued : s'.issued = s.issued) (hpending : s'.pending = s.pending) (hdone : s'.done = s.done) :
    Whole s' op := by
  rw [Whole, hissued, hpending, hdone]
  exact h.imp_right (And.imp_left fun hno hin => hno (hops op hin))

theorem writesOf_eq_nil {op : Nat} {ws : List Write} (h : ∀ w ∈ ws, w.op ≠ op) :
    writesOf op ws = [] := List.filter_eq_nil_iff.mpr fun w hw => by simpa using h w hw

/-- A call that has not begun has no writes. -/
theorem Ids.unborn (h : Ids s) :
    writesOf s.next s.done = [] ∧ writesOf s.next s.pending = writesOf s.next s.issued := by
  have hrec : ∀ w ∈ s.done ++ s.pending, w.op ≠ s.next := fun w hw => (h.old w (h.record w hw)).ne
  refine ⟨writesOf_eq_nil fun w hw => hrec w (List.mem_append_left _ hw), ?_⟩
  rw [writesOf_eq_nil fun w hw => hrec w (List.mem_append_right _ hw),
    writesOf_eq_nil fun w hw => (h.old w hw).ne]

/-- Committing moves whole calls. -/
theorem Whole.commit {op : Nat} (h : Whole s op) (hnone : s.ops = []) (hops : s'.ops = s.ops)
    (hissued : s'.issued = s.issued) (hpending : s'.pending = [])
    (hdone : s'.done = s.done ++ s.pending) : Whole s' op := by
  refine .inr ⟨by simp [hops, hnone], by rw [hpending]; rfl, ?_⟩
  rw [hdone, hissued, writesOf_append]
  rcases h with ⟨hd, hp⟩ | ⟨-, hp, hd⟩
  · rw [hd, hp]
    exact .inr rfl
  · rw [hp, List.append_nil]
    exact hd

theorem Whole.step (h : ∀ op, Whole s op) (hi : Ids s) (hstep : Step g s a s') (op : Nat) :
    Whole s' op := by
  cases hstep with
  | begin =>
    by_cases hop : op = s.next
    · rw [hop]
      exact .inl hi.unborn
    · refine (h op).imp_right (And.imp_left fun hno hin => ?_)
      rcases List.mem_cons.mp hin with heq | hin
      · exact hop heq
      · exact hno hin
  | @write op' b x i l _ hop =>
    by_cases heq : op' = op
    · rcases h op with ⟨hd, hp⟩ | ⟨hno, -⟩
      · refine .inl ⟨hd, ?_⟩
        rw [writesOf_append, writesOf_append, hp]
      · exact absurd (heq ▸ hop) hno
    · have hnil : writesOf op [⟨op', b, x⟩] = [] := writesOf_eq_nil (by simpa using heq)
      rw [Whole, writesOf_append, writesOf_append, hnil, List.append_nil, List.append_nil]
      exact h op
  | @finish op' _ _ =>
    refine (h op).move (fun op'' hin => ?_) (endOp_issued ..) (endOp_pending ..) (endOp_done ..)
    rw [endOp_ops] at hin
    exact List.mem_of_mem_erase hin
  | logHead hm _ => exact (h op).commit (hi.idle (by simp [hm])) rfl rfl rfl rfl
  | crash =>
    refine .inr ⟨by simp [State.crash], rfl, ?_⟩
    exact (h op).elim (fun hd => .inl hd.1) fun hd => hd.2.2
  | _ => exact (h op).move (fun _ => id) rfl rfl rfl

/-! ## The disk, step by step -/

/-- What the buffer cache is made of. -/
theorem Cached.congr (h : Cached g s) (hdisk : s'.disk = s.disk) (hcache : s'.cache = s.cache)
    (hdirty : s'.dirty = s.dirty) : Cached g s' := by
  refine ⟨fun b x hc hd => ?_, fun b hd => ?_⟩
  · rw [hdisk]
    exact h.clean b x (hcache ▸ hc) (hdirty ▸ hd)
  · rw [hcache]
    exact h.pinned b (hdirty ▸ hd)

theorem Cached.endOp (h : Cached g s) (op : Nat) : Cached g (s.endOp op) := by
  rw [State.endOp]
  split
  · exact h.congr rfl rfl rfl
  · exact h.congr rfl rfl rfl

theorem Cached.step (h : Cached g s) (hstep : Step g s a s') : Cached g s' := by
  cases hstep with
  | begin | logNone | boot => exact h.congr rfl rfl rfl
  | @write op b x i l _ _ hb _ =>
    refine ⟨fun b' x' hc hd => ?_, fun b' hd => ?_⟩
    · have hne : b' ≠ b := by
        rintro rfl
        simp at hd
      simp only [update_of_ne hne] at hc hd
      exact h.clean b' x' hc hd
    · by_cases hne : b' = b
      · subst hne
        exact ⟨by simp, hb⟩
      · simp only [update_of_ne hne] at hd ⊢
        exact h.pinned b' hd
  | finish => exact h.endOp _
  | @load b _ hnone =>
    refine ⟨fun b' x' hc hd => ?_, fun b' hd => ?_⟩
    · by_cases hne : b' = b
      · subst hne
        simpa [eq_comm] using hc
      · simp only [update_of_ne hne] at hc
        exact h.clean b' x' hc hd
    · have hpin := h.pinned b' hd
      have hne : b' ≠ b := by
        rintro rfl
        exact hpin.1 hnone
      simpa [update_of_ne hne] using hpin
  | @evict b hclean =>
    refine ⟨fun b' x' hc hd => ?_, fun b' hd => ?_⟩
    · have hne : b' ≠ b := by
        rintro rfl
        simp at hc
      simp only [update_of_ne hne] at hc
      exact h.clean b' x' hc hd
    · have hne : b' ≠ b := by
        rintro rfl
        simp [hclean] at hd
      simpa [update_of_ne hne] using h.pinned b' hd
  | logBlock | logHead | installBlock | installHead | replayBlock | replayHead =>
    exact (h.bwrite _ _).congr rfl rfl rfl
  | crash => exact ⟨by simp [State.crash], by simp [State.crash]⟩

variable {T : Nat → Block} {tail : Nat}

/-- Lines that move no data. -/
theorem Open.congr (h : Open g T s) (hdisk : s'.disk = s.disk) (hbread : s'.bread = s.bread)
    (hlh : s'.log.lh = s.log.lh) (hpending : s'.pending = s.pending) : Open g T s' := by
  refine ⟨?_, ?_, ?_, ?_, ?_, ?_⟩
  · rw [hdisk]
    exact h.head
  · rw [hdisk]
    exact h.home
  · rw [hbread, hpending]
    exact h.view
  · rw [hlh, hpending]
    exact h.named
  · rw [hlh]
    exact h.out
  · rw [hlh]
    exact h.size

theorem OnDisk.congr {m : Mode} (h : OnDisk g T s m) (hdisk : s'.disk = s.disk)
    (hbread : s'.bread = s.bread) (hdirty : s'.dirty = s.dirty) (hlh : s'.log.lh = s.log.lh)
    (hpending : s'.pending = s.pending) : OnDisk g T s' m := by
  cases m with
  | running => exact Open.congr h hdisk hbread hlh hpending
  | writeLog tail =>
    refine ⟨h.1.congr hdisk hbread hlh hpending, ?_⟩
    rw [hdisk, hlh, hpending]
    exact h.2
  | install tail =>
    obtain ⟨hsame, hreplay, hview, hnil⟩ := h
    refine ⟨?_, ?_, ?_, hpending.trans hnil⟩
    · rwa [hlh, hdisk]
    · rwa [hlh, hdisk]
    · rwa [hbread]
  | down =>
    obtain ⟨hsame, hreplay, hclean, hnil⟩ := h
    refine ⟨?_, ?_, ?_, hpending.trans hnil⟩
    · rwa [hdisk]
    · rwa [hdisk]
    · rwa [hdirty]
  | replay tail =>
    obtain ⟨hsame, hreplay, hclean, hnil⟩ := h
    refine ⟨?_, ?_, ?_, hpending.trans hnil⟩
    · rwa [hlh, hdisk]
    · rwa [hlh, hdisk]
    · rwa [hdirty]

/-- Blocks of the log. -/
theorem Geom.inLog_block {i n : Nat} (hi : i < n) (hn : n = 0 ∨ n < g.size) :
    g.InLog (g.start + i + 1) := ⟨by omega, by omega⟩

/-- Outside of the log is not in it. -/
theorem ne_of_inLog {b b' : Nat} (hb : ¬ g.InLog b) (hb' : g.InLog b') : b ≠ b' := fun h => hb (h ▸ hb')

/-- **A write of a call** goes to the cache and the header in memory. -/
theorem Open.write (h : Open g T s) (op : Nat) (x : Block) {b i : Nat} {l : Log}
    (hb : ¬ g.InLog b) (hl : Logged g.size s.log l b i) :
    Open g T { s with
      cache := update s.cache b (some x), dirty := update s.dirty b true
      log := l, issued := s.issued ++ [⟨op, b, x⟩], pending := s.pending ++ [⟨op, b, x⟩] } := by
  have hhas : ∀ b', s.log.lh.Has b' → l.lh.Has b' := by
    rintro b' ⟨j, hj, rfl⟩
    refine ⟨j, ?_, hl.others j hj⟩
    rcases hl.grown with hn | ⟨hn, -, -⟩ <;> omega
  refine ⟨h.head, h.home, fun b' hb' => ?_, fun w hw => ?_, fun j hj => ?_, .inr ?_⟩
  · rw [applyTo_append, applyTo, List.foldl_cons, List.foldl_nil, State.bread]
    by_cases heq : b' = b
    · simp [heq]
    · have hview := h.view b' hb'
      rw [State.bread] at hview
      simpa [heq] using hview
  · rcases List.mem_append.mp hw with hw | hw
    · exact hhas _ (h.named w hw)
    · rw [List.mem_singleton.mp hw]
      exact ⟨i, hl.index_lt, hl.entry⟩
  · by_cases hj' : j < s.log.lh.n
    · rw [show l.lh.block j = _ from hl.others j hj']
      exact h.out j hj'
    · have hji : j = i := by
        change j < l.lh.n at hj
        rcases hl.grown with hn | ⟨hn, hi, -⟩ <;> omega
      rw [hji, show l.lh.block i = b from hl.entry]
      exact hb
  · have hfits := hl.fits
    change l.lh.n < g.size
    rcases hl.grown with hn | ⟨hn, -, -⟩ <;> omega

/-- **Copying a block to the log.** -/
theorem Open.logBlock (h : Open g T s)
    (hlog : ∀ i < tail, i < s.log.lh.n →
      s.disk (g.start + i + 1) = applyTo T s.pending (s.log.lh.block i))
    (ht : tail < s.log.lh.n) :
    OnDisk g T { s.bwrite (g.start + tail + 1) (s.bread (s.log.lh.block tail)) with
      mode := .writeLog (tail + 1) } (.writeLog (tail + 1)) := by
  have hin : g.InLog (g.start + tail + 1) := Geom.inLog_block ht h.size
  refine ⟨⟨?_, fun b hb => ?_, fun b hb => ?_, h.named, h.out, h.size⟩, fun i hi hi' => ?_⟩
  · change (getHeader (update s.disk _ _ g.start)).n = 0
    rw [update_of_ne (by omega)]
    exact h.head
  · exact (update_of_ne (ne_of_inLog hb hin) _ _).trans (h.home b hb)
  · exact (bread_bwrite_of_ne (ne_of_inLog hb hin) _).trans (h.view b hb)
  · change update s.disk _ _ _ = applyTo T s.pending (s.log.lh.block i)
    by_cases heq : i = tail
    · rw [heq, update_self]
      exact h.view _ (h.out tail ht)
    · rw [update_of_ne (by omega)]
      exact hlog i (by omega) hi'

/-- **The commit point**: the header reaches the disk. -/
theorem Open.commit (h : Open g T s)
    (hlog : ∀ i < s.log.lh.n, s.disk (g.start + i + 1) = applyTo T s.pending (s.log.lh.block i)) :
    Installing g (applyTo T s.pending)
      { s.bwrite g.start (putHeader s.log.lh (s.bread g.start)) with
        mode := .install 0, pending := [], done := s.done ++ s.pending } 0 := by
  refine ⟨?_, ⟨h.size, h.out, fun i hi => ?_, fun b hb hno => ?_, fun i hi => by omega⟩,
    fun b hb => ?_, rfl⟩
  · change s.log.lh.Same (getHeader (update s.disk g.start _ g.start))
    rw [update_self]
    exact getHeader_putHeader _ _
  · exact (update_of_ne (by omega) _ _).trans (hlog i hi)
  · refine (update_of_ne (ne_of_inLog hb g.inLog_start) _ _).trans ?_
    rw [h.home b hb, applyTo_of_not_mem]
    rintro w hw rfl
    exact hno (h.named w hw)
  · exact (bread_bwrite_of_ne (ne_of_inLog hb g.inLog_start) _).trans (h.view b hb)

/-- **Copying a block home**, in `commit` and in `recover_from_log`. -/
theorem Replayable.copy {h : Header} (hr : Replayable g T s.disk h tail)
    (hsame : h.Same (getHeader (s.disk g.start))) (hc : Cached g s) (ht : tail < h.n) :
    h.Same (getHeader ((s.bwrite (h.block tail) (s.bread (g.start + tail + 1))).disk g.start))
      ∧ Replayable g T (s.bwrite (h.block tail) (s.bread (g.start + tail + 1))).disk h (tail + 1)
      ∧ s.bread (g.start + tail + 1) = T (h.block tail) := by
  have hread : s.bread (g.start + tail + 1) = T (h.block tail) := by
    rw [hc.bread_log (Geom.inLog_block ht hr.size), hr.log tail ht]
  refine ⟨?_, ?_, hread⟩
  · change h.Same (getHeader (update s.disk _ _ g.start))
    rw [update_of_ne (ne_of_inLog (hr.out tail ht) g.inLog_start).symm]
    exact hsame
  · rw [hread]
    exact hr.install ht

/-- **Clearing the header**, when all blocks are home. -/
theorem Replayable.clear {h : Header} (hr : Replayable g T s.disk h tail) (ht : h.n ≤ tail)
    (hview : ∀ b, ¬ g.InLog b → s.bread b = T b) (hpending : s.pending = []) {l : Log}
    (hl : l.lh.n = 0) :
    Open g T { s.bwrite g.start (putHeader s.log.clear.lh (s.bread g.start)) with
      mode := .running, log := l } := by
  refine ⟨?_, fun b hb => ?_, fun b hb => ?_, ?_, fun i hi => ?_, .inl hl⟩
  · change (getHeader (update s.disk g.start _ g.start)).n = 0
    rw [update_self]
    rfl
  · exact (update_of_ne (ne_of_inLog hb g.inLog_start) _ _).trans (hr.contents ht hb)
  · change State.bread (s.bwrite g.start _) b = applyTo T s.pending b
    rw [bread_bwrite_of_ne (ne_of_inLog hb g.inLog_start), hpending]
    exact hview b hb
  · change ∀ w ∈ s.pending, _
    simp [hpending]
  · change i < l.lh.n at hi
    omega

/-- **Every step keeps the disk one replay away from the contents.** -/
theorem OnDisk.step (h : OnDisk g (applyTo d₀ s.done) s s.mode) (hc : Cached g s) (hi : Ids s)
    (hstep : Step g s a s') : OnDisk g (applyTo d₀ s'.done) s' s'.mode := by
  cases hstep with
  | begin => exact h.congr rfl rfl rfl rfl rfl
  | @write op b x i l _ hop hb hw =>
    have hm := hi.running hop
    rw [hm] at h
    have hopen : OnDisk g (applyTo d₀ s.done) _ .running := Open.write h op x hb (logWrite_ok hw)
    rwa [← hm] at hopen
  | @finish op _ hop =>
    have hm := hi.running hop
    rw [hm] at h
    rw [endOp_done, State.endOp]
    split
    · exact ⟨Open.congr h rfl rfl rfl rfl, fun i hi => absurd hi (Nat.not_lt_zero i)⟩
    · change OnDisk g _ _ s.mode
      rw [hm]
      exact Open.congr h rfl rfl rfl rfl
  | @load b _ hnone =>
    refine h.congr rfl ?_ rfl rfl rfl
    funext b'
    by_cases heq : b' = b
    · simp [State.bread, heq, hnone]
    · simp [State.bread, heq]
  | @evict b hclean =>
    refine h.congr rfl ?_ rfl rfl rfl
    funext b'
    by_cases heq : b' = b
    · subst heq
      rw [hc.bread_clean hclean]
      simp [State.bread]
    · simp [State.bread, heq]
  | logBlock hm ht =>
    rw [hm] at h
    exact h.1.logBlock h.2 ht
  | logHead hm _ =>
    rw [hm] at h
    change Installing g (applyTo d₀ (s.done ++ s.pending)) _ 0
    rw [applyTo_append]
    exact h.1.commit fun i hi => h.2 i hi hi
  | logNone hm _ =>
    rw [hm] at h
    exact h.1.congr rfl rfl rfl rfl
  | @installBlock tail hm ht =>
    rw [hm] at h
    obtain ⟨hsame, hreplay, hread⟩ := h.replay.copy h.same hc ht
    refine ⟨hsame, hreplay, fun b hb => ?_, h.pending⟩
    change State.bread (s.bwrite _ _) b = applyTo d₀ s.done b
    by_cases heq : b = s.log.lh.block tail
    · rw [heq, bread_bwrite_self, hread]
    · rw [bread_bwrite_of_ne heq]
      exact h.view b hb
  | installHead hm =>
    rw [hm] at h
    exact h.replay.clear le_rfl h.view h.pending rfl
  | crash => exact ⟨⟨rfl, fun _ _ => rfl⟩, h.replayable, fun _ => rfl, rfl⟩
  | boot hm =>
    rw [hm] at h
    have hread : s.bread g.start = s.disk g.start := hc.bread_clean (h.clean _)
    refine ⟨?_, ?_, h.clean, h.pending⟩
    · change (getHeader (s.bread g.start)).Same _
      rw [hread]
      exact ⟨rfl, fun _ _ => rfl⟩
    · change Replayable g _ s.disk (getHeader (s.bread g.start)) 0
      rw [hread]
      exact h.replay
  | @replayBlock tail hm ht =>
    rw [hm] at h
    obtain ⟨hsame, hreplay, -⟩ := h.replay.copy h.same hc ht
    refine ⟨hsame, hreplay, fun b => ?_, h.pending⟩
    change update s.dirty _ false b = false
    by_cases heq : b = s.log.lh.block tail
    · rw [heq, update_self]
    · rw [update_of_ne heq]
      exact h.clean b
  | replayHead hm =>
    rw [hm] at h
    refine h.replay.clear le_rfl (fun b hb => ?_) h.pending rfl
    rw [hc.bread_clean (h.clean b)]
    exact h.replay.contents le_rfl hb

/-- **What holds throughout.** -/
structure Sound (g : Geom) (d₀ : Nat → Block) (s : State) : Prop where
  ids : Ids s
  cached : Cached g s
  whole : ∀ op, Whole s op
  onDisk : OnDisk g (applyTo d₀ s.done) s s.mode

theorem sound_of_reach (h : Runs.Reach (Start g d₀) (Step g) s) : Sound g d₀ s := by
  refine h.keeps (fun s h => ?_) fun s a s' h hstep => ?_
  · refine ⟨h.ids, ⟨?_, ?_⟩, fun op => .inl ?_, ?_⟩
    · simp [h.cache]
    · simp [h.dirty]
    · rw [h.done, h.pending, h.issued]
      exact ⟨rfl, rfl⟩
    · rw [h.done, h.mode]
      refine ⟨⟨rfl, fun _ _ => rfl⟩, .of_contents ?_ ?_, h.dirty, h.pending⟩
      · rw [h.disk]
        exact h.head
      · intro b _
        rw [h.disk]
        rfl
  · exact ⟨h.ids.step hstep, h.cached.step hstep, Whole.step h.whole h.ids hstep,
      h.onDisk.step h.cached h.ids hstep⟩

/-- **The log is atomic.**  Whenever recovery has completed, or a commit, every block outside of the log
holds what the transactions whose header reached the disk have made of it, the log on the disk is
empty, and of each call all writes are among these or none. -/
theorem log_atomic (h : Runs.Reach (Start g d₀) (Step g) s) (hm : s.mode = .running) :
    (∀ b, ¬ g.InLog b → s.disk b = applyTo d₀ s.done b) ∧ (getHeader (s.disk g.start)).n = 0
      ∧ ∀ op, writesOf op s.done = [] ∨ writesOf op s.done = writesOf op s.issued := by
  obtain ⟨-, -, hwhole, hdisk⟩ := sound_of_reach h
  rw [hm] at hdisk
  refine ⟨hdisk.home, hdisk.head, fun op => ?_⟩
  rcases hwhole op with ⟨hd, -⟩ | ⟨-, -, hd⟩
  · exact .inl hd
  · exact hd

/-- A machine with an empty disk. -/
def blank : State where
  disk _ _ := 0
  cache _ := none
  dirty _ := false
  log := ⟨0, false, ⟨0, fun _ => 0⟩⟩
  mode := .down
  ops := []
  next := 0
  issued := []
  pending := []
  done := []

theorem blank_start : Start mkfsLog (fun _ _ => 0) blank :=
  ⟨rfl, rfl, fun _ => rfl, fun _ => rfl, rfl, rfl, rfl, rfl, rfl, rfl⟩

/-- One call writes one block, and all is committed. -/
theorem log_atomic_block : ∃ s : State, s.mode = .running ∧ s.done.length = 1
    ∧ s.disk 100 = applyTo (fun _ _ => 0) s.done 100 := by
  have hboot := (Runs.Reach.init blank_start).step (Step.boot (g := mkfsLog) rfl)
  have hup := hboot.step (.replayHead rfl)
  have hbegin := hup.step (.begin rfl (by decide))
  have hwrite := hbegin.step (e := .write 0 100 fun _ => 7)
    (.write rfl (by decide) (by simp [Geom.InLog, mkfsLog]) rfl)
  have hend := hwrite.step (e := .finish 0) (.finish rfl (by decide))
  have hlog := hend.step (.logBlock (by rfl) (by decide))
  have hhead := hlog.step (.logHead (by rfl) (by decide))
  have hhome := hhead.step (.installBlock (by rfl) (by decide))
  have hclear := hhome.step (.installHead (by rfl))
  exact ⟨_, rfl, by decide, (log_atomic hclear rfl).1 100 (by simp [Geom.InLog, mkfsLog])⟩

end Xv6.Redo
