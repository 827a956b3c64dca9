import Mathlib.Algebra.Group.Action.Defs
import Mathlib.Algebra.Order.BigOperators.Group.List
import Mathlib.Algebra.Order.Ring.Nat
import Mathlib.Data.Finset.Card
import Xv6Ipc.Log.Crash

/-!
# Log/Admission — how many blocks a call may write

`begin_op` keeps `MAXOPBLOCKS` blocks of the log for each call in progress, and `LOGSIZE` is three
times that.  But `mkfs` counts the header among the `LOGSIZE` blocks of the log, and `log_write` stops
one short of it:

    lh.n + (outstanding + 1) * 10 ≤ 30     lets a call begin
    lh.n ≥ size - 1 = 29                   makes it panic

so that three calls of ten blocks do not fit.  Calls of nine do.
-/

namespace Xv6.Redo

variable {s s' : State} {a : Act} {d : Nat → Block} {B : Nat}

/-- The blocks a call has written. -/
def blocksOf (op : Nat) (ws : List Write) : Finset Nat := ((writesOf op ws).map Write.block).toFinset

/-- A step by which no call comes to write more than `B` blocks. -/
def Within (g : Geom) (B : Nat) (s : State) (a : Act) (s' : State) : Prop :=
  Step g s a s' ∧ ∀ op b x, a = .write op b x →
    (blocksOf op (s.pending ++ [⟨op, b, x⟩])).card ≤ B

/-- **What admission is for**: the blocks logged fit in the log, and a call that keeps to its `B` blocks
can log the next one. -/
structure Roomy (g : Geom) (B : Nat) (s : State) : Prop where
  fits : s.log.lh.n < g.size
  logs : s.mode.up = true → ∀ op ∈ s.ops, ∀ b x, ¬ g.InLog b →
    (blocksOf op (s.pending ++ [⟨op, b, x⟩])).card ≤ B →
    ∃ i l, logWrite g.size s.log b = .ok (i, l) ∧ i < LOGSIZE

/-! ## Calls of nine blocks fit -/

/-- What a call may still write. -/
def spare (B : Nat) (s : State) (op : Nat) : Nat := B - (blocksOf op s.pending).card

/-- **The account**: blocks logged and blocks still to come stay below the limit. -/
structure Account (B : Nat) (s : State) : Prop where
  bound : s.log.lh.n + (s.ops.map (spare B s)).sum ≤ 28
  empty : s.ops = [] → s.log.lh.n = 0

theorem blocksOf_of_ne {op op' : Nat} (h : op' ≠ op) (ws : List Write) (b : Nat) (x : Block) :
    blocksOf op (ws ++ [⟨op', b, x⟩]) = blocksOf op ws := by
  have hnil : writesOf op [⟨op', b, x⟩] = [] := writesOf_eq_nil (by simpa using h)
  rw [blocksOf, writesOf_append, hnil, List.append_nil, blocksOf]

/-- Another write of a call adds its block. -/
theorem blocksOf_self (op b : Nat) (ws : List Write) (x : Block) :
    blocksOf op (ws ++ [⟨op, b, x⟩]) = insert b (blocksOf op ws) := by
  have hself : writesOf op [⟨op, b, x⟩] = [⟨op, b, x⟩] := by simp [writesOf]
  rw [blocksOf, writesOf_append, hself, blocksOf]
  ext b'
  simp

theorem not_mem_blocksOf {op b : Nat} {ws : List Write} (h : ∀ w ∈ ws, w.block ≠ b) :
    b ∉ blocksOf op ws := by
  rw [blocksOf, List.mem_toFinset, List.mem_map]
  rintro ⟨w, hw, hb⟩
  exact h w (List.mem_of_mem_filter hw) hb

/-- A sum in which one term falls. -/
theorem sum_map_le_of_mem {ops : List Nat} {f f' : Nat → Nat} {op k : Nat} (hnodup : ops.Nodup)
    (hop : op ∈ ops) (hself : f' op + k ≤ f op) (hother : ∀ op' ∈ ops, op' ≠ op → f' op' = f op') :
    (ops.map f').sum + k ≤ (ops.map f).sum := by
  have hperm := List.perm_cons_erase hop
  have hrest : (ops.erase op).map f' = (ops.erase op).map f := by
    refine List.map_congr_left fun op' hin => hother op' (List.mem_of_mem_erase hin) ?_
    rintro rfl
    exact (hnodup.mem_erase_iff.mp hin).1 rfl
  rw [(hperm.map f').sum_eq, (hperm.map f).sum_eq, List.map_cons, List.map_cons, List.sum_cons,
    List.sum_cons, hrest]
  omega

variable {g : Geom}

/-- **A write of a call spends what it takes.** -/
theorem Account.write (h : Account B s) (hi : Ids s) (hnamed : ∀ w ∈ s.pending, s.log.lh.Has w.block)
    {op b i : Nat} {x : Block} {l : Log} (hop : op ∈ s.ops) (hl : Logged g.size s.log l b i)
    (hB : (blocksOf op (s.pending ++ [⟨op, b, x⟩])).card ≤ B) {t : State} (hlog : t.log = l)
    (hops : t.ops = s.ops) (hpending : t.pending = s.pending ++ [⟨op, b, x⟩]) : Account B t := by
  have hother : ∀ op' ∈ s.ops, op' ≠ op → spare B t op' = spare B s op' := fun op' _ hne => by
    rw [spare, hpending, blocksOf_of_ne hne.symm, spare]
  have hbound := h.bound
  rw [blocksOf_self] at hB
  refine ⟨?_, fun hnil => ?_⟩
  · rw [hlog, hops]
    rcases hl.grown with hn | ⟨hn, -, hnew⟩
    · -- The block is logged already: nothing is taken, and the call may have a block less to go.
      have hself : spare B t op + 0 ≤ spare B s op := by
        rw [spare, hpending, blocksOf_self, spare]
        have := Finset.card_le_card (Finset.subset_insert b (blocksOf op s.pending))
        omega
      have hsum := sum_map_le_of_mem hi.nodup hop hself hother
      omega
    · -- A new block is new to the call too.
      have hfresh : b ∉ blocksOf op s.pending := by
        refine not_mem_blocksOf fun w hw hb => ?_
        obtain ⟨j, hj, hjb⟩ := hnamed w hw
        exact hnew j hj (hjb.trans hb)
      rw [Finset.card_insert_of_notMem hfresh] at hB
      have hself : spare B t op + 1 ≤ spare B s op := by
        rw [spare, hpending, blocksOf_self, Finset.card_insert_of_notMem hfresh, spare]
        omega
      have hsum := sum_map_le_of_mem hi.nodup hop hself hother
      omega
  · rw [hops] at hnil
    simp [hnil] at hop

/-- **A call that begins is paid for.** -/
theorem Account.begin (h : Account B s) (hi : Ids s) (hB : B < MAXOPBLOCKS) (hadm : s.log.Admits)
    {t : State} (hlog : t.log.lh = s.log.lh) (hops : t.ops = s.next :: s.ops)
    (hpending : t.pending = s.pending) : Account B t := by
  have hspare : spare B t = spare B s := by
    funext op
    rw [spare, hpending, spare]
  refine ⟨?_, fun hnil => ?_⟩
  · have hle : ∀ k ∈ s.ops.map (spare B s), k ≤ B := by
      intro k hk
      obtain ⟨op, -, rfl⟩ := List.mem_map.mp hk
      exact Nat.sub_le _ _
    have hsum := List.sum_le_card_nsmul _ B hle
    have hnew : spare B s s.next ≤ B := Nat.sub_le _ _
    have hroom := hadm.2
    have hempty := h.empty
    rw [hi.outstanding] at hroom
    rw [hlog, hops, hspare, List.map_cons, List.sum_cons]
    rw [List.length_map, smul_eq_mul] at hsum
    rw [MAXOPBLOCKS] at hB hroom
    rw [LOGSIZE] at hroom
    cases hcase : s.ops with
    | nil =>
      simp [hempty hcase]
      omega
    | cons op ops =>
      rw [hcase, List.length_cons] at hsum hroom
      have hmul : (ops.length + 1) * B ≤ (ops.length + 1) * 9 := Nat.mul_le_mul_left _ (by omega)
      omega
  · simp [hops] at hnil

theorem Account.finish (h : Account B s) {op : Nat} {t : State} (hlog : t.log.lh = s.log.lh)
    (hops : t.ops = s.ops.erase op) (hpending : t.pending = s.pending) (hsome : t.ops ≠ []) :
    Account B t := by
  have hspare : spare B t = spare B s := by
    funext op
    rw [spare, hpending, spare]
  refine ⟨?_, fun hnil => absurd hnil hsome⟩
  have hbound := h.bound
  have hsum := ((List.erase_sublist (a := op) (l := s.ops)).map (spare B s)).sum_le_sum
    fun _ _ => Nat.zero_le _
  rw [hlog, hops, hspare]
  omega

/-- Nothing in progress, nothing logged. -/
theorem Account.of_empty (hops : s.ops = []) (hn : s.log.lh.n = 0) : Account B s :=
  ⟨by simp [hops, hn], fun _ => hn⟩

/-- **Every step keeps the account**, for calls of at most nine blocks. -/
theorem Account.step (hB : B < MAXOPBLOCKS) (hs : Sound g d s) (ha : s.mode = .running → Account B s)
    (hstep : Within g B s a s') (hm' : s'.mode = .running) : Account B s' := by
  obtain ⟨hstep, hwithin⟩ := hstep
  cases hstep with
  | begin hup hadm => exact (ha hm').begin hs.ids hB hadm rfl rfl rfl
  | write _ hop _ hw =>
    have hm : s.mode = Mode.running := hm'
    have hopen := hs.onDisk
    rw [hm] at hopen
    exact (ha hm').write hs.ids hopen.named hop (logWrite_ok hw) (hwithin _ _ _ rfl) rfl rfl rfl
  | @finish op _ hop =>
    have hm := hs.ids.running hop
    have hlen := List.length_erase_of_mem hop
    have hout := hs.ids.outstanding
    rw [State.endOp] at hm' ⊢
    split at hm'
    · simp at hm'
    · next hlast =>
      rw [if_neg hlast]
      refine (ha hm).finish rfl rfl rfl fun hnil => hlast ?_
      change s.ops.erase op = [] at hnil
      rw [hnil, List.length_nil] at hlen
      omega
  | load | evict => exact ⟨(ha hm').bound, (ha hm').empty⟩
  | logNone hm hn => exact .of_empty (hs.ids.idle (by simp [hm])) hn
  | installHead hm | replayHead hm => exact .of_empty (hs.ids.idle (by simp [hm])) rfl
  | crash => simp [State.crash] at hm'
  | _ => simp at hm'

/-- The blocks logged fit in the log. -/
theorem lh_lt_step (hs : Sound g d s) (hlt : s.log.lh.n < g.size) (hstep : Step g s a s') :
    s'.log.lh.n < g.size := by
  cases hstep with
  | write _ _ _ hw =>
    have hl := logWrite_ok hw
    have hfits := hl.fits
    rcases hl.grown with hn | ⟨hn, -, -⟩
    · change _ = _ at hn
      exact hn ▸ hlt
    · exact hn ▸ hfits
  | finish =>
    rw [State.endOp]
    split <;> exact hlt
  | installHead | crash | replayHead => exact g.pos
  | boot hm =>
    have honDisk := hs.onDisk
    rw [hm] at honDisk
    change (getHeader (s.bread g.start)).n < g.size
    rw [hs.cached.bread_clean (honDisk.clean _)]
    rcases honDisk.replay.size with hn | hn
    · rw [hn]
      exact g.pos
    · exact hn
  | _ => exact hlt

/-- Below the limit `log_write` logs. -/
theorem logWrite_of_lt (size b : Nat) {l : Log} (hn : l.lh.n < LOGSIZE) (hsize : l.lh.n + 1 < size)
    (hout : 0 < l.outstanding) : ∃ i l', logWrite size l b = .ok (i, l') ∧ i < LOGSIZE := by
  have hfind : l.lh.find b ≤ l.lh.n := by
    rcases l.lh.find_cases b with ⟨hlt, -⟩ | ⟨heq, -⟩
    · exact hlt.le
    · exact heq.le
  rw [logWrite, if_neg (by omega), if_neg (by omega)]
  exact ⟨_, _, rfl, by omega⟩

/-- **Calls of at most nine blocks always find room.** -/
theorem roomy_of_reach (hB : B < MAXOPBLOCKS)
    (h : Runs.Reach (Start mkfsLog d) (Within mkfsLog B) s) : Roomy mkfsLog B s := by
  have hkept : Sound mkfsLog d s ∧ (s.mode = .running → Account B s) ∧ s.log.lh.n < mkfsLog.size := by
    have hreach := h
    induction h with
    | init hs =>
      refine ⟨sound_of_reach (.init hs), fun hm => ?_, ?_⟩
      · simp [hs.mode] at hm
      · rw [hs.log]
        exact mkfsLog.pos
    | step hr hstep ih =>
      obtain ⟨hsound, hacc, hlt⟩ := ih hr
      exact ⟨sound_of_reach (hreach.mono fun _ _ _ hw => hw.1), Account.step hB hsound hacc hstep,
        lh_lt_step hsound hlt hstep.1⟩
  obtain ⟨hsound, hacc, hlt⟩ := hkept
  refine ⟨hlt, fun _ op hop b x _ _ => ?_⟩
  have hbound := (hacc (hsound.ids.running hop)).bound
  have hout : 0 < s.log.outstanding := by
    rw [hsound.ids.outstanding]
    exact List.length_pos_of_mem hop
  exact logWrite_of_lt _ _ (by rw [LOGSIZE]; omega) (by change s.log.lh.n + 1 < 30; omega) hout

/-! ## Calls of ten do not -/

/-- Three calls in progress have written `k` blocks, ten each as far as they go. -/
structure Filled (k : Nat) (s : State) : Prop where
  mode : s.mode = .running
  ops : s.ops = [2, 1, 0]
  outstanding : s.log.outstanding = 3
  n : s.log.lh.n = k
  block : ∀ i < k, s.log.lh.block i = 100 + i
  pending : s.pending = (List.range k).map fun i => ⟨i / 10, 100 + i, fun _ => 0⟩

/-- None of them has more than ten. -/
theorem card_blocksOf_le (op k : Nat) :
    (blocksOf op ((List.range k).map fun i => ⟨i / 10, 100 + i, fun _ => 0⟩)).card ≤ 10 := by
  have hsub : blocksOf op ((List.range k).map fun i => ⟨i / 10, 100 + i, fun _ => 0⟩)
      ⊆ (Finset.range 10).image fun j => 100 + (10 * op + j) := by
    intro b hb
    rw [blocksOf, List.mem_toFinset, List.mem_map] at hb
    obtain ⟨w, hw, rfl⟩ := hb
    obtain ⟨hw, hop⟩ := List.mem_filter.mp hw
    obtain ⟨i, -, rfl⟩ := List.mem_map.mp hw
    have hdiv : i / 10 = op := by simpa using hop
    refine Finset.mem_image.mpr ⟨i - 10 * op, Finset.mem_range.mpr (by omega), ?_⟩
    change 100 + (10 * op + (i - 10 * op)) = 100 + i
    omega
  exact (Finset.card_le_card hsub).trans Finset.card_image_le

theorem Filled.start (B : Nat) :
    ∃ s, Runs.Reach (Start mkfsLog fun _ _ => 0) (Within mkfsLog B) s ∧ Filled 0 s := by
  have hstep : ∀ {s a s'}, (∀ op b x, a ≠ .write op b x) → Step mkfsLog s a s' →
      Within mkfsLog B s a s' := fun hno h => ⟨h, fun op b x ha => absurd ha (hno op b x)⟩
  have hboot := (Runs.Reach.init blank_start).step (hstep (by simp) (.boot rfl))
  have hup := hboot.step (hstep (by simp) (.replayHead rfl))
  have hfirst := hup.step (hstep (by simp) (.begin rfl (by decide)))
  have hsecond := hfirst.step (hstep (by simp) (.begin rfl (by decide)))
  have hthird := hsecond.step (hstep (by simp) (.begin rfl (by decide)))
  exact ⟨_, hthird, rfl, rfl, rfl, rfl, fun i hi => absurd hi (Nat.not_lt_zero i), rfl⟩

theorem Filled.next (hB : 10 ≤ B) {k : Nat} (hk : k < 29)
    (hr : Runs.Reach (Start mkfsLog fun _ _ => 0) (Within mkfsLog B) s) (h : Filled k s) :
    ∃ s', Runs.Reach (Start mkfsLog fun _ _ => 0) (Within mkfsLog B) s' ∧ Filled (k + 1) s' := by
  have hn := h.n
  obtain ⟨i, l, hw, -⟩ := logWrite_of_lt 30 (100 + k) (l := s.log) (by rw [LOGSIZE]; omega) (by omega)
    (by rw [h.outstanding]; decide)
  have hl := logWrite_ok hw
  have hgrown : l.lh.n = k + 1 ∧ i = k := by
    rcases hl.grown with hsame | ⟨hmore, hi, -⟩
    · have hlt := hl.index_lt
      have hold := hl.others i (by omega)
      rw [hl.entry, h.block i (by omega)] at hold
      omega
    · exact ⟨by omega, by omega⟩
  have hpending : s.pending ++ [⟨k / 10, 100 + k, fun _ => 0⟩]
      = (List.range (k + 1)).map fun i => ⟨i / 10, 100 + i, fun _ => 0⟩ := by
    rw [h.pending, List.range_succ, List.map_append]
    rfl
  have hop : k / 10 ∈ s.ops := by
    rw [h.ops]
    have : k / 10 = 0 ∨ k / 10 = 1 ∨ k / 10 = 2 := by omega
    rcases this with h | h | h <;> simp [h]
  have hout : ¬ mkfsLog.InLog (100 + k) := fun hin => by
    have := hin.2
    change 100 + k < 2 + 30 at this
    omega
  have hup : s.mode.up = true := by
    rw [h.mode]
    rfl
  refine ⟨_, hr.step (e := .write (k / 10) (100 + k) fun _ => 0)
    ⟨.write hup hop hout hw, fun op b x ha => ?_⟩, h.mode, h.ops, hl.outstanding.trans h.outstanding,
    hgrown.1, fun j hj => ?_, hpending⟩
  · obtain ⟨rfl, rfl, rfl⟩ := Act.write.inj ha
    rw [hpending]
    exact (card_blocksOf_le _ _).trans hB
  · change l.lh.block j = 100 + j
    by_cases hjk : j = k
    · rw [hjk, ← hgrown.2, hl.entry, hgrown.2]
    · rw [hl.others j (by omega), h.block j (by omega)]

theorem filled (hB : 10 ≤ B) {k : Nat} (hk : k ≤ 29) :
    ∃ s, Runs.Reach (Start mkfsLog fun _ _ => 0) (Within mkfsLog B) s ∧ Filled k s := by
  induction k with
  | zero => exact Filled.start B
  | succ k ih =>
    obtain ⟨s, hr, hf⟩ := ih (by omega)
    exact hf.next hB (by omega) hr

/-- **The thirtieth block of three calls panics.** -/
theorem Filled.not_roomy (hB : 10 ≤ B) (h : Filled 29 s) : ¬ Roomy mkfsLog B s := by
  intro hroomy
  have hup : s.mode.up = true := by
    rw [h.mode]
    rfl
  have hcard : (blocksOf 2 (s.pending ++ [⟨2, 129, fun _ => 0⟩])).card ≤ B := by
    have hle := (card_blocksOf_le 2 30).trans hB
    rw [List.range_succ, List.map_append] at hle
    rw [h.pending]
    exact hle
  obtain ⟨i, l, hw, -⟩ := hroomy.logs hup 2 (by simp [h.ops]) 129 _ (by simp [Geom.InLog, mkfsLog]) hcard
  rw [logWrite, if_pos (.inr (by rw [h.n]; decide))] at hw
  simp at hw

/-- **Admission is enough just for calls of at most nine blocks**, one less than `begin_op` counts. -/
theorem log_admission_iff (B : Nat) :
    (∀ d s, Runs.Reach (Start mkfsLog d) (Within mkfsLog B) s → Roomy mkfsLog B s)
      ↔ B < MAXOPBLOCKS := by
  constructor
  · intro hall
    by_contra hB
    have hB : 10 ≤ B := Nat.not_lt.mp hB
    obtain ⟨s, hr, hf⟩ := filled hB le_rfl
    exact hf.not_roomy hB (hall _ s hr)
  · intro hB d s hr
    exact roomy_of_reach hB hr

/-- Calls that keep to the `MAXOPBLOCKS` they are promised. -/
theorem log_admission_ten :
    ¬ ∀ s, Runs.Reach (Start mkfsLog fun _ _ => 0) (Within mkfsLog MAXOPBLOCKS) s →
      Roomy mkfsLog MAXOPBLOCKS s := by
  intro hall
  obtain ⟨s, hr, hf⟩ := filled (B := MAXOPBLOCKS) (by decide) le_rfl
  exact hf.not_roomy (by decide) (hall s hr)

end Xv6.Redo
