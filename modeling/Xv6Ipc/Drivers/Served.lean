import Xv6Ipc.Drivers.Refine

/-!
# Drivers/Served — every request once, in order

At any point of a run the requests fall into three parts, in the order in which they were appended:

    appended  =  served ── in ideintr's hands ── in the queue
    started   =  served ── with the device

The device has one request at most, and `iderw` returns when its own is among the served.  The memory
disk, given the same requests in the same order, has the same buffers throughout, and the same disk
whenever the device has no write to report.
-/

namespace Xv6.Ide

open Function (update)
open Chain

variable {P B D : Type} [DecidableEq P] [DecidableEq B]

/-- A step on disk `1` that meets with no error. -/
def PlainStep (havedisk1 : Bool) (s : State P B D) (e : Event P B D) (s' : State P B D) : Prop :=
  Step havedisk1 s e s' ∧ Plain s e

/-- **What is so after a run `es` from `s₀` to `s`**: `Q` is in the queue, `A` with the device, and the
memory disk has come to `mem`. -/
structure Serves (havedisk1 : Bool) (s₀ : State P B D) (es : List (Event P B D)) (s : State P B D)
    (Q A : List B) (mem : Mem P B D) : Prop where
  queue : Seg some s.qnext s.idequeue Q none
  order : served es ++ (s.pending ++ Q) = appended es
  started : served es ++ A = started es
  one : A.length ≤ 1
  first : A <+: s.pending ++ Q
  command : ∀ c out, s.device = .busy c out → ∃ b, s.idequeue = some b
    ∧ idestart (s.buf b) = some c ∧ out = (s.buf b).data
  works : s.idelock = none → Q ≠ [] → A ≠ []
  wakes : ∀ p b, s.pc p = .asleep b → b ∈ Q ∨ s.intr = .transfer b ∨ s.intr = .wake b
  returns : ∀ p b s', Step havedisk1 s (.ret p b) s' →
    (s'.buf b).Synced ∧ (served es).count b = (appended es).count b
  replay : s₀.mem.replay es = some mem
  buf : mem.buf = s.buf
  holder : mem.holder = s.holder
  disk : mem.disk = s.disk 1 ∨ ∃ b, A = [b] ∧ (s.buf b).dirty = true
    ∧ s.disk 1 = update mem.disk (s.buf b).blockno (s.buf b).data

variable {s s₀ : State P B D} {es : List (Event P B D)} {Q A : List B} {m : Nat → D} {mem : Mem P B D}
  {havedisk1 : Bool}

/-! ## The device, once more -/

section Drive

variable (h : Drive s Q m A)
include h

omit [DecidableEq P] [DecidableEq B]

theorem Drive.length_le : A.length ≤ 1 := by
  cases h with
  | rest => exact Nat.zero_le 1
  | busy | done | taken => exact Nat.le_refl 1

/-- The request with the device is the first that is not served. -/
theorem Drive.isPrefix : A <+: s.pending ++ Q := by
  cases h with
  | rest => exact List.nil_prefix
  | busy hQ _ _ _ hi | done hQ _ hi =>
    have hpend := s.pending_append (i := s.intr) rfl (fun b hc => by simp [hc] at hi) Q
    rw [List.append_nil] at hpend
    rw [← hpend, hQ]
    exact ⟨_, rfl⟩
  | taken hi =>
    rw [s.pending_transfer hi]
    exact ⟨Q, rfl⟩

/-- With `idelock` free, the device is not idle while there is something in the queue. -/
theorem Drive.works (hl : Locks s) (hfree : s.idelock = none) (hQ : Q ≠ []) : A ≠ [] := by
  cases h with
  | rest _ _ _ _ hc =>
    rcases hc with hc | ⟨p, b, hp, -⟩ | ⟨b, hi⟩ | hi
    · exact absurd hc hQ
    · exact absurd (by rw [hp]; trivial) (hl.not_holds (p := p) hfree)
    · exact absurd (by rw [hi]; trivial) (hl.not_intr_of_free hfree)
    · exact absurd (by rw [hi]; trivial) (hl.not_intr_of_free hfree)
  | busy | done | taken => exact List.cons_ne_nil _ _

/-- The disks agree, but for a write that is carried out and not served. -/
theorem Drive.disk : m = s.disk 1 ∨ ∃ b, A = [b] ∧ (s.buf b).dirty = true
    ∧ s.disk 1 = update m (s.buf b).blockno (s.buf b).data := by
  have hland : ∀ {b x}, Landed m (s.disk 1) (s.buf b) x → m = s.disk 1 ∨ ∃ c, [b] = [c]
      ∧ (s.buf c).dirty = true ∧ s.disk 1 = update m (s.buf c).blockno (s.buf c).data := by
    rintro b x ⟨-, hl⟩
    split at hl
    · exact .inr ⟨b, rfl, ‹_›, hl⟩
    · exact .inl hl.1.symm
  cases h with
  | rest _ _ hm | busy _ _ _ _ _ hm => exact .inl hm.symm
  | done _ _ _ hl | taken _ _ _ hl => exact hland hl

end Drive

/-! ## Runs -/

omit [DecidableEq P] [DecidableEq B] in
/-- The beginning. -/
theorem Init.beside (h : Init s) : Beside s [] [] s.mem := by
  obtain ⟨x, e, hd⟩ := h.device
  have hpc : ∀ {p b}, ¬ (s.pc p).At b := fun {p b} hat => by
    rw [h.pc p] at hat
    exact hat
  refine ⟨⟨fun p => ?_, ?_⟩, ⟨?_, fun p => ?_, ?_, nofun⟩, fun p b hat => absurd hat hpc, ?_, rfl, rfl⟩
  · rw [h.pc p, h.idelock]
    exact iff_of_false nofun id
  · rw [h.intr, h.idelock]
    exact iff_of_false nofun id
  · rw [h.idequeue]
    exact .nil none
  · rw [h.pc p]
    trivial
  · rw [h.intr]
    trivial
  · exact .rest hd h.irq rfl (.inl h.intr) (.inl rfl)

omit [DecidableEq P] [DecidableEq B] in
theorem served_append (es es' : List (Event P B D)) : served (es ++ es') = served es ++ served es' :=
  List.filterMap_append

omit [DecidableEq P] [DecidableEq B] in
theorem appended_append (es es' : List (Event P B D)) :
    appended (es ++ es') = appended es ++ appended es' := List.filterMap_append

omit [DecidableEq P] [DecidableEq B] in
theorem started_append (es es' : List (Event P B D)) :
    started (es ++ es') = started es ++ started es' := List.filterMap_append

/-- **A run of the driver is one of the memory disk.** -/
theorem beside_of_run (hinit : Init s₀) (hrun : Runs.Trace (PlainStep havedisk1) s₀ es s) :
    ∃ Q A mem, Beside s Q A mem ∧ s₀.mem.replay es = some mem
      ∧ served es ++ (s.pending ++ Q) = appended es ∧ served es ++ A = started es := by
  induction hrun with
  | nil =>
    refine ⟨[], [], s₀.mem, hinit.beside, rfl, ?_, rfl⟩
    have hpend := s₀.pending_append hinit.intr nofun []
    rw [List.append_nil] at hpend
    rw [← hpend]
    rfl
  | @snoc es s₁ e s₂ _ hstep ih =>
    obtain ⟨Q, A, mem, hb, hreplay, horder, hstart⟩ := ih
    obtain ⟨Q', A', mem', hb', hmem, horder', hstart'⟩ := hb.step hstep.1 hstep.2
    refine ⟨Q', A', mem', hb', ?_, ?_, ?_⟩
    · rw [Mem.replay, List.foldlM_append]
      rw [Mem.replay] at hreplay
      simp [hreplay, hmem]
    · rw [served_append, appended_append, List.append_assoc, horder', ← List.append_assoc, horder]
    · rw [served_append, started_append, List.append_assoc, hstart', ← List.append_assoc, hstart]

omit [DecidableEq P] in
/-- A process that is about to return has been served. -/
theorem Beside.returned (h : Beside s Q A mem) {p : P} {b : B} (hpc : s.pc p = .unlock b)
    (horder : served es ++ (s.pending ++ Q) = appended es) :
    (s.buf b).Synced ∧ (served es).count b = (appended es).count b := by
  obtain ⟨-, hsync⟩ := h.queue.line_of hpc
  have hqueue : Q.count b = 0 := List.count_eq_zero.mpr fun hb => (h.queue.queued b hb).1 hsync
  have hpend : s.pending.count b = 0 := by
    refine List.count_eq_zero.mpr fun hb => ?_
    rw [State.pending] at hb
    split at hb
    · rename_i c hi
      have hhand := h.queue.handler
      rw [hi] at hhand
      obtain rfl := List.mem_singleton.mp hb
      exact hhand.2.1 hsync
    · exact absurd hb List.not_mem_nil
  refine ⟨hsync, ?_⟩
  rw [← horder, List.count_append, List.count_append, hqueue, hpend]
  rfl

/-- **The driver refines the memory disk**, on disk `1` and without errors of the device: in any run,
by any number of processes. -/
theorem ide_refines_memide (hinit : Init s₀) (hrun : Runs.Trace (PlainStep havedisk1) s₀ es s) :
    ∃ Q A mem, Serves havedisk1 s₀ es s Q A mem := by
  obtain ⟨Q, A, mem, h, hreplay, horder, hstart⟩ := beside_of_run hinit hrun
  refine ⟨Q, A, mem, h.queue.seg, horder, hstart, h.drive.length_le, h.drive.isPrefix, fun c out hd => ?_,
    h.drive.works h.locks, fun p b hpc => (h.queue.line_of hpc).2, fun p b s' hs => ?_, hreplay, h.buf,
    h.holder, h.drive.disk⟩
  · cases h.drive with
    | busy hQ hc hd' =>
      obtain ⟨rfl, rfl⟩ := Device.busy.inj (hd.symm.trans hd')
      exact ⟨_, h.queue.idequeue_cons hQ, hc, rfl⟩
    | rest hd' | done _ hd' | taken _ _ hd' => exact absurd (hd.symm.trans hd') (by simp)
  · cases hs with
    | ret hpc => exact h.returned hpc horder

/-! ## One process, one buffer -/

/-- A process that holds a buffer for block `0` of disk `dev`; there are ones on the disks. -/
def lone (dev : Nat) : State Unit Unit Nat where
  idelock := none
  idequeue := none
  qnext _ := none
  buf _ := ⟨false, false, dev, 0, 0⟩
  holder _ := some ()
  pc _ := .idle
  intr := .idle
  irq := 0
  device := .ready 0 false
  disk _ _ := 1

theorem lone_init (dev : Nat) : Init (lone dev) := ⟨rfl, rfl, fun _ => rfl, rfl, rfl, 0, false, rfl⟩

/-- It reads the block; `e` says whether the device meets with an error. -/
def loneRead (e : Bool) : List (Event Unit Unit Nat) :=
  [.call () (), .tau, .append () (), .start (), .tau, .complete e, .tau, .tau, .tau, .serve (), .tau,
    .tau, .tau, .tau, .tau, .ret () ()]

/-- **The run**, and the buffer that it ends with. -/
theorem lone_run (dev : Nat) (e : Bool) : ∃ s, Runs.Trace
      (fun s ev s' => Step true s ev s' ∧ (dev = 1 → e = false → Plain s ev)) (lone dev) (loneRead e) s
    ∧ s.buf () = ⟨true, false, dev, 0, if e = true then 0 else 1⟩ := by
  have hblank : ¬ ((lone dev).buf ()).Synced := fun h => Bool.false_ne_true h.1
  refine ⟨_, .cons ⟨.call (p := ()) (b := ()) rfl rfl hblank fun _ => rfl, fun h _ => h⟩ <|
    .cons ⟨.acquire (p := ()) (b := ()) rfl rfl, fun _ _ => trivial⟩ <|
    .cons ⟨.append (p := ()) (b := ()) rfl rfl, fun _ _ => trivial⟩ <|
    .cons ⟨.start (p := ()) (b := ()) rfl rfl rfl rfl, fun _ _ => trivial⟩ <|
    .cons ⟨.sleep (p := ()) (b := ()) rfl hblank, fun _ _ => trivial⟩ <|
    .cons ⟨.read rfl (of_decide_eq_false rfl), fun _ h => h⟩ <|
    .cons ⟨.trap rfl rfl, fun _ _ => trivial⟩ <|
    .cons ⟨.intrAcquire rfl rfl, fun _ _ => trivial⟩ <|
    .cons ⟨.take (b := ()) rfl rfl, fun _ _ => trivial⟩ <|
    .cons ⟨.filled (b := ()) rfl rfl rfl, fun _ _ => trivial⟩ <|
    .cons ⟨.wakeup (b := ()) rfl, fun _ _ => trivial⟩ <|
    .cons ⟨.last rfl rfl, fun _ _ => trivial⟩ <|
    .cons ⟨.intrRelease rfl, fun _ _ => trivial⟩ <|
    .cons ⟨.regain (p := ()) (b := ()) rfl rfl, fun _ _ => trivial⟩ <|
    .cons ⟨.leave (p := ()) (b := ()) rfl ⟨rfl, rfl⟩, fun _ _ => trivial⟩ <|
    .cons ⟨.ret (p := ()) (b := ()) rfl, fun _ _ => trivial⟩ <| .nil _, ?_⟩
  rfl

/-- A block of disk `1` is read without error. -/
theorem ide_refines_memide_lone : ∃ s, Runs.Trace (PlainStep true) (lone 1) (loneRead false) s
    ∧ ∃ Q A mem, Serves true (lone 1) (loneRead false) s Q A mem := by
  obtain ⟨s, hrun, -⟩ := lone_run 1 false
  have hplain : Runs.Trace (PlainStep true) (lone 1) (loneRead false) s :=
    hrun.restrict fun _ _ _ _ h => ⟨h.1, h.2 rfl rfl⟩
  exact ⟨s, hplain, ide_refines_memide (lone_init 1) hplain⟩

/-- **Where the two differ**: `memide.c` has no disk `0`, and `ideintr` marks a buffer as valid that the
device could not read. -/
theorem ide_differs_from_memide :
    (∃ s, Runs.Trace (Step true) (lone 0) (loneRead false) s ∧ (s.buf ()).Synced
        ∧ (lone 0).mem.replay (loneRead false) = none)
      ∧ ∃ s mem, Runs.Trace (Step true) (lone 1) (loneRead true) s ∧ (s.buf ()).Synced
        ∧ (lone 1).mem.replay (loneRead true) = some mem ∧ (mem.buf ()).data = 1
        ∧ (s.buf ()).data = 0 := by
  obtain ⟨s, hrun, hbuf⟩ := lone_run 0 false
  obtain ⟨s', hrun', hbuf'⟩ := lone_run 1 true
  refine ⟨⟨s, hrun.restrict fun _ _ _ _ h => h.1, ?_, rfl⟩, s', _,
    hrun'.restrict fun _ _ _ _ h => h.1, ?_, rfl, rfl, ?_⟩
  · rw [hbuf]
    exact ⟨rfl, rfl⟩
  · rw [hbuf']
    exact ⟨rfl, rfl⟩
  · rw [hbuf']
    rfl

end Xv6.Ide
