import Xv6Ipc.Drivers.Queue

/-!
# Drivers/Refine — the driver does what the memory disk does

The device works for the first buffer of the queue or for nobody.  Its four stages, against the disk
`m` of `memide.c`:

    rest     nothing to do, or the next request is not started yet           disk = m
    busy     the command is the one for the first of the queue               disk = m
    done     it is carried out and the interrupt is on its way               disk = m, or ahead by the write
    taken    ideintr has the buffer                                          as in done

With `transfer` the request is done in both, and they agree again.
-/

namespace Xv6.Ide

open Function

open Function (update)

variable {P B D : Type}

/-! ## What a command means -/

theorem idestart_eq {b : Buf D} {c : Command} (h : idestart b = some c) :
    b.blockno < FSSIZE ∧ c.disk = b.dev % 2 ∧ c.sector = b.blockno ∧ (c.writes ↔ b.dirty = true) := by
  rw [idestart] at h
  split at h
  · simp at h
  rename_i hlt
  obtain rfl := Option.some.inj h
  have hper : sectorPerBlock = 1 := rfl
  have hblock : b.blockno < 1000 := Nat.not_le.mp hlt
  have hhigh : b.blockno / 2 ^ 24 % 16 = 0 := by
    rw [Nat.div_eq_of_lt (by omega)]
  have hdrive : (0xe0 ||| (b.dev % 2) <<< 4 ||| 0) / 16 % 2 = b.dev % 2
      ∧ (0xe0 ||| (b.dev % 2) <<< 4 ||| 0) % 16 = 0 := by
    rcases Nat.mod_two_eq_zero_or_one b.dev with h | h <;> rw [h] <;> decide
  refine ⟨hblock, ?_, ?_, ?_⟩
  · simp only [Command.disk, hper, Nat.mul_one, hhigh]
    exact hdrive.1
  · simp only [Command.sector, hper, Nat.mul_one, hhigh, hdrive.2]
    omega
  · simp only [Command.writes, hper, if_true]
    cases b.dirty <;> decide

/-! ## The stages of the device -/

/-- What a command for `b` leaves when it is carried out: the block on the disk, or in the port. -/
def Landed (m disk : Nat → D) (b : Buf D) (x : D) : Prop :=
  b.blockno < FSSIZE ∧ if b.dirty = true then disk = update m b.blockno b.data
    else disk = m ∧ x = m b.blockno

/-- **The device, the queue and the memory disk**; the last argument is the request that the device was
given and `ideintr` is not yet done with. -/
inductive Drive (s : State P B D) (Q : List B) (m : Nat → D) : List B → Prop
  | rest {x : D} {e : Bool} : s.device = .ready x e → s.irq = 0 → s.disk 1 = m →
    (s.intr = .idle ∨ (∃ b, s.intr = .wake b) ∨ s.intr = .next ∨ s.intr = .unlock) →
    (Q = [] ∨ (∃ p b, s.pc p = .start b ∧ Q = [b]) ∨ (∃ b, s.intr = .wake b) ∨ s.intr = .next) →
    Drive s Q m []
  | busy {b : B} {rest : List B} {c : Command} : Q = b :: rest → idestart (s.buf b) = some c →
    s.device = .busy c (s.buf b).data → s.irq = 0 → (s.intr = .idle ∨ s.intr = .unlock) →
    s.disk 1 = m → (∀ p, s.pc p ≠ .start b) → Drive s Q m [b]
  | done {b : B} {rest : List B} {x : D} : Q = b :: rest → s.device = .ready x false →
    (s.irq = 1 ∧ (s.intr = .idle ∨ s.intr = .unlock) ∨ s.irq = 0 ∧ (s.intr = .lock ∨ s.intr = .take)) →
    Landed m (s.disk 1) (s.buf b) x → (∀ p, s.pc p ≠ .start b) → Drive s Q m [b]
  | taken {b : B} {x : D} : s.intr = .transfer b → s.irq = 0 → s.device = .ready x false →
    Landed m (s.disk 1) (s.buf b) x → Drive s Q m [b]

variable {s t : State P B D} {Q A : List B} {m : Nat → D} {p : P} {b : B}

/-- A step that neither the device nor `ideintr` has a part in. -/
theorem Drive.congr (h : Drive s Q m A) (hdevice : t.device = s.device) (hirq : t.irq = s.irq)
    (hintr : t.intr = s.intr) (hdisk : t.disk = s.disk)
    (hbuf : ∀ b, b ∈ Q ∨ s.intr = .transfer b → t.buf b = s.buf b)
    (hpc : ∀ q b, t.pc q = .start b ↔ s.pc q = .start b) : Drive t Q m A := by
  cases h with
  | rest hd hn hm hi hq =>
    rw [← hdevice] at hd
    refine .rest hd (hirq.trans hn) (by rw [hdisk, hm]) (by rw [hintr]; exact hi) ?_
    rw [hintr]
    exact hq.imp_right (.imp_left fun ⟨p, b, hp, hQ⟩ => ⟨p, b, (hpc p b).mpr hp, hQ⟩)
  | busy hQ hc hd hn hi hm hp =>
    have hb := hbuf _ (.inl (hQ ▸ List.mem_cons_self))
    refine .busy hQ (by rw [hb]; exact hc) (by rw [hb, hdevice]; exact hd) (hirq.trans hn)
      (by rw [hintr]; exact hi) (by rw [hdisk, hm]) fun q hq => hp q ((hpc q _).mp hq)
  | done hQ hd hi hl hp =>
    have hb := hbuf _ (.inl (hQ ▸ List.mem_cons_self))
    refine .done hQ (hdevice.trans hd) (by rw [hirq, hintr]; exact hi) (by rw [hdisk, hb]; exact hl)
      fun q hq => hp q ((hpc q _).mp hq)
  | taken hi hn hd hl =>
    have hb := hbuf _ (.inr hi)
    exact .taken (hintr.trans hi) (hirq.trans hn) (hdevice.trans hd) (by rw [hdisk, hb]; exact hl)

section Process

variable [DecidableEq P] (h : Drive s Q m A)
include h

/-- A process goes on, from a line that does not start the device to another. -/
theorem Drive.move {pc : Pc B} (hpc : t.pc = update s.pc p pc) (hold : ∀ b, s.pc p ≠ .start b)
    (hnew : ∀ b, pc ≠ .start b) (hdevice : t.device = s.device) (hirq : t.irq = s.irq)
    (hintr : t.intr = s.intr) (hdisk : t.disk = s.disk) (hbuf : t.buf = s.buf) : Drive t Q m A := by
  refine h.congr hdevice hirq hintr hdisk (fun b _ => by rw [hbuf]) fun q b => ?_
  rw [hpc]
  by_cases hq : q = p
  · rw [hq, update_self]
    exact iff_of_false (hnew b) (hold b)
  · rw [update_of_ne hq]

variable (hl : Locks s) (hq : Queue s Q)
include hl hq

/-- A process finds another buffer at the head of the queue. -/
theorem Drive.skip (hp : s.pc p = .start b) (hb : s.idequeue ≠ some b) :
    Drive { s with pc := update s.pc p (.test b) } Q m A := by
  have hpc : ∀ q c, update s.pc p (.test b) q = .start c → s.pc q = .start c := fun q c hc => by
    by_cases hqp : q = p
    · rw [hqp, update_self] at hc
      simp at hc
    · rwa [update_of_ne hqp] at hc
  cases h with
  | rest hd hn hm hi hQ =>
    refine .rest hd hn hm hi ?_
    rcases hQ with hQ | ⟨q, c, hc, hQ⟩ | hQ
    · exact .inl hQ
    · have hqp : q = p := hl.unique (by rw [hc]; trivial) (by rw [hp]; trivial)
      rw [hqp, hp] at hc
      obtain rfl := Pc.start.inj hc
      exact absurd (hq.idequeue_cons hQ) hb
    · exact .inr (.inr hQ)
  | busy hQ hc hd hn hi hm hout => exact .busy hQ hc hd hn hi hm fun q hc => hout q (hpc q _ hc)
  | done hQ hd hi hld hout => exact .done hQ hd hi hld fun q hc => hout q (hpc q _ hc)
  | taken hi hn hd hld => exact .taken hi hn hd hld

/-- A process starts the device. -/
theorem Drive.start {c : Command} (hp : s.pc p = .start b) (hb : s.idequeue = some b)
    (hc : idestart (s.buf b) = some c) :
    Drive { s with device := .busy c (s.buf b).data, pc := update s.pc p (.test b) } Q m (A ++ [b]) := by
  obtain ⟨rest, hQ, -⟩ := hq.idequeue_some hb
  have hholds : (s.pc p).Holds := by rw [hp]; trivial
  have hintr := hl.not_intr hholds
  cases h with
  | rest hd hn hm hi _ =>
    refine .busy hQ hc rfl hn (.inl (hi.resolve_right ?_)) hm fun q => ?_
    · rintro (⟨b, hi⟩ | hi | hi) <;> exact hintr (by rw [hi]; trivial)
    · change update s.pc p (.test b) q ≠ .start b
      by_cases hqp : q = p
      · rw [hqp, update_self]
        exact nofun
      · rw [update_of_ne hqp]
        intro hc
        exact hqp (hl.unique (by rw [hc]; trivial) hholds)
  | busy hQ' _ _ _ _ _ hout | done hQ' _ _ _ hout =>
    obtain ⟨rfl, -⟩ := List.cons.inj (hQ.symm.trans hQ')
    exact absurd hp (hout p)
  | taken hi _ _ _ => exact absurd (by rw [hi]; trivial) hintr

/-- A process appends a buffer. -/
theorem Drive.append [DecidableEq B] {pp : Option B} (hp : s.pc p = .walk b pp) (hb : b ∉ Q) :
    Drive { s.assign b pp with pc := update s.pc p (.start b) } (Q ++ [b]) m A := by
  have hholds : (s.pc p).Holds := by rw [hp]; trivial
  have hintr := hl.not_intr hholds
  have hself : update s.pc p (.start b) p = .start b := update_self ..
  have hpc : ∀ c, c ∈ Q → (∀ q, s.pc q ≠ .start c) → ∀ q, update s.pc p (.start b) q ≠ .start c := by
    intro c hc hout q
    by_cases hqp : q = p
    · rw [hqp, hself]
      intro heq
      exact hb (Pc.start.inj heq ▸ hc)
    · rw [update_of_ne hqp]
      exact hout q
  rw [State.assign_eq]
  cases h with
  | rest hd hn hm hi hQ =>
    refine .rest hd hn hm hi (.inr (.inl ⟨p, b, hself, ?_⟩))
    rcases hQ with rfl | ⟨q, c, hc, -⟩ | ⟨c, hc⟩ | hc
    · rfl
    · have hqp : q = p := hl.unique (by rw [hc]; trivial) hholds
      rw [hqp, hp] at hc
      simp at hc
    · exact absurd (by rw [hc]; trivial) hintr
    · exact absurd (by rw [hc]; trivial) hintr
  | @busy c rest _ hQ hc hd hn hi hm hout =>
    subst hQ
    exact .busy rfl hc hd hn hi hm (hpc c List.mem_cons_self hout)
  | @done c rest _ hQ hd hi hld hout =>
    subst hQ
    exact .done rfl hd hi hld (hpc c List.mem_cons_self hout)
  | taken hi _ _ _ => exact absurd (by rw [hi]; trivial) hintr

end Process

/-! ## The device and `ideintr` -/

section Device

variable (h : Drive s Q m A)
include h

/-- The device is done with a command. -/
theorem Drive.complete {c : Command} {out x : D} {disk : Nat → Nat → D}
    (hdev : ∀ b ∈ Q, (s.buf b).dev = 1) (hd : s.device = .busy c out)
    (hdo : c.writes ∧ disk = update s.disk c.disk (update (s.disk c.disk) c.sector out) ∨
      ¬ c.writes ∧ disk = s.disk ∧ x = s.disk c.disk c.sector) :
    Drive { s with device := .ready x false, irq := s.irq + 1, disk := disk } Q m A := by
  cases h with
  | busy hQ hc hd' hn hi hm hout =>
    obtain ⟨rfl, rfl⟩ := Device.busy.inj (hd.symm.trans hd')
    obtain ⟨hlt, hdisk, hsector, hwrites⟩ := idestart_eq hc
    rw [hdev _ (hQ ▸ List.mem_cons_self)] at hdisk
    refine .done hQ rfl (.inl ⟨congrArg (· + 1) hn, hi⟩) ⟨hlt, ?_⟩ hout
    rcases hdo with ⟨hw, rfl⟩ | ⟨hw, rfl, rfl⟩
    · change if _ then update s.disk c.disk (update (s.disk c.disk) c.sector _) 1 = _ else _
      rw [if_pos (hwrites.mp hw), hdisk, hsector, update_self, hm]
    · rw [if_neg fun hc => hw (hwrites.mpr hc), hdisk, hsector, hm]
      exact ⟨rfl, rfl⟩
  | rest hd' | done _ hd' | taken _ _ hd' => exact nomatch hd.symm.trans hd'

/-- The interrupt is taken… -/
theorem Drive.trap {n : Nat} (hi : s.intr = .idle) (hn : s.irq = n + 1) :
    Drive { s with irq := n, intr := .lock } Q m A := by
  cases h with
  | done hQ hd hirq hl hout =>
    have hzero : n = 0 := by
      rcases hirq with ⟨hone, -⟩ | ⟨-, hc⟩
      · omega
      · simp [hi] at hc
    exact .done hQ hd (.inr ⟨hzero, .inl rfl⟩) hl hout
  | rest _ hz | busy _ _ _ hz | taken _ hz => omega

/-- …and there is a request that it is for… -/
theorem Drive.raised (hi : s.intr = .lock ∨ s.intr = .take) : ∃ b rest x, Q = b :: rest ∧ A = [b]
    ∧ s.irq = 0 ∧ s.device = .ready x false ∧ Landed m (s.disk 1) (s.buf b) x
    ∧ ∀ p, s.pc p ≠ .start b := by
  cases h with
  | done hQ hd hirq hl hout =>
    refine ⟨_, _, _, hQ, rfl, ?_, hd, hl, hout⟩
    rcases hirq with ⟨-, hc⟩ | ⟨hz, -⟩
    · rcases hi with hi | hi <;> simp [hi] at hc
    · exact hz
  | rest _ _ _ hc | busy _ _ _ _ hc | taken hc => rcases hi with hi | hi <;> simp [hi] at hc

/-- …which stands when `ideintr` has the lock. -/
theorem Drive.acquire (hi : s.intr = .lock) (lk : Option (Holder P)) :
    Drive { s with idelock := lk, intr := .take } Q m A := by
  obtain ⟨b, rest, x, hQ, rfl, hn, hd, hl, hout⟩ := h.raised (.inl hi)
  exact .done hQ hd (.inr ⟨hn, .inr rfl⟩) hl hout

/-- While `ideintr` has a buffer, the device has done what it was told for it. -/
theorem Drive.landed (hi : s.intr = .transfer b) :
    ∃ x, A = [b] ∧ s.irq = 0 ∧ s.device = .ready x false ∧ Landed m (s.disk 1) (s.buf b) x := by
  cases h with
  | taken hi' hn hd hl =>
    obtain rfl := Intr.transfer.inj (hi.symm.trans hi')
    exact ⟨_, rfl, hn, hd, hl⟩
  | rest _ _ _ hc | busy _ _ _ _ hc | done _ _ hc => simp [hi] at hc

/-- Between two requests the device rests. -/
theorem Drive.between (hi : (∃ b, s.intr = .wake b) ∨ s.intr = .next) :
    A = [] ∧ (∃ x e, s.device = .ready x e) ∧ s.irq = 0 ∧ s.disk 1 = m := by
  cases h with
  | rest hd hn hm => exact ⟨rfl, ⟨_, _, hd⟩, hn, hm⟩
  | busy _ _ _ _ hc | done _ _ hc | taken hc => rcases hi with ⟨b, hi⟩ | hi <;> simp [hi] at hc

/-- `ideintr` starts the next request. -/
theorem Drive.next {c : Command} (hl : Locks s) (hq : Queue s Q) (hi : s.intr = .next)
    (hb : s.idequeue = some b) (hc : idestart (s.buf b) = some c) :
    Drive { s with device := .busy c (s.buf b).data, intr := .unlock } Q m (A ++ [b]) := by
  obtain ⟨rfl, -, hn, hm⟩ := h.between (.inr hi)
  obtain ⟨rest, hQ, -⟩ := hq.idequeue_some hb
  refine .busy hQ hc rfl hn (.inr rfl) hm fun p hp => ?_
  exact hl.not_intr (p := p) (by rw [hp]; trivial) (by rw [hi]; trivial)

/-- `ideintr` returns. -/
theorem Drive.release (hi : s.intr = .unlock) (lk : Option (Holder P)) :
    Drive { s with idelock := lk, intr := .idle } Q m A := by
  cases h with
  | rest hd hn hm _ hQ =>
    refine .rest hd hn hm (.inl rfl) (hQ.imp_right fun hQ => .inl (hQ.resolve_right fun hc => ?_))
    simp [hi] at hc
  | busy hQ hc hd hn _ hm hout => exact .busy hQ hc hd hn (.inl rfl) hm hout
  | done hQ hd hirq hl hout =>
    refine .done hQ hd (.inl ⟨?_, .inl rfl⟩) hl hout
    rcases hirq with ⟨hone, -⟩ | ⟨-, hc⟩
    · exact hone
    · simp [hi] at hc
  | taken hc => simp [hi] at hc

end Device

/-! ## Both drivers, step by step -/

/-- The request that `ideintr` has in its hands. -/
def State.pending (s : State P B D) : List B :=
  match s.intr with
  | .transfer b => [b]
  | _ => []

theorem State.pending_transfer (h : s.intr = .transfer b) : s.pending = [b] := by
  rw [State.pending, h]

/-- At any other line there is none. -/
theorem State.pending_append {i : Intr B} (h : s.intr = i) (hi : ∀ b, i ≠ .transfer b) (Q : List B) :
    Q = s.pending ++ Q ++ [] := by
  have hnil : s.pending = [] := by
    rw [State.pending, h]
    split
    · exact absurd rfl (hi _)
    · rfl
  rw [hnil, List.nil_append, List.append_nil]

/-- **The driver and the memory disk side by side**, with `Q` in the queue. -/
structure Beside (s : State P B D) (Q A : List B) (m : Mem P B D) : Prop where
  locks : Locks s
  queue : Queue s Q
  dev : ∀ p b, (s.pc p).At b → (s.buf b).dev = 1
  drive : Drive s Q m.disk A
  buf : m.buf = s.buf
  holder : m.holder = s.holder

variable [DecidableEq P] [DecidableEq B] {mem : Mem P B D} {e : Event P B D} {havedisk1 : Bool}

/-- What `memide.c` does with a request whose command is carried out. -/
theorem Mem.iderw_of_landed {disk : Nat → D} {x : D} (hholder : mem.holder b = some p)
    (hsync : ¬ (mem.buf b).Synced) (hdev : (mem.buf b).dev = 1)
    (hl : Landed mem.disk disk (mem.buf b) x) : mem.iderw p b = some
      { mem with
        disk := disk
        buf := update mem.buf b { mem.buf b with
          valid := true, dirty := false
          data := if (mem.buf b).dirty = true then (mem.buf b).data else x } } := by
  obtain ⟨hlt, hland⟩ := hl
  rw [Mem.iderw, if_neg (not_not.mpr hholder), if_neg hsync, if_neg (not_not.mpr hdev),
    if_neg (Nat.not_le.mpr hlt)]
  by_cases hd : (mem.buf b).dirty = true
  · rw [if_pos hd] at hland ⊢
    rw [if_pos hd, hland]
  · rw [if_neg hd] at hland ⊢
    rw [if_neg hd, hland.1, ← hland.2]
    have hfalse : (mem.buf b).dirty = false := by simpa using hd
    rw [← hfalse]

namespace Beside

variable (h : Beside s Q A mem) {s' : State P B D}
include h

omit [DecidableEq P] [DecidableEq B] in
theorem dev_queue (hb : b ∈ Q) : (s.buf b).dev = 1 := by
  obtain ⟨-, q, -, hw⟩ := h.queue.queued b hb
  exact h.dev q b hw.at

omit [DecidableEq B] in
/-- A process that is in `iderw` with a buffer after a step was so before, or has just called it. -/
theorem dev_move {pc₀ : Pc B} (pc : Pc B) (hpc : s.pc p = pc₀)
    (hat : ∀ b, pc.At b → pc₀.At b ∨ (s.buf b).dev = 1) (q : P) (c : B)
    (hc : (update s.pc p pc q).At c) : (s.buf c).dev = 1 := by
  by_cases hq : q = p
  · rw [hq, update_self] at hc
    refine (hat c hc).elim (fun hc => h.dev p c ?_) id
    rw [hpc]
    exact hc
  · rw [update_of_ne hq] at hc
    exact h.dev q c hc

omit [DecidableEq B] in
/-- **A process goes on**, from a line that does not start the device to another. -/
theorem move {pc₀ pc : Pc B} {lk : Option (Holder P)} (hpc : s.pc p = pc₀)
    (hlocks : Locks { s with idelock := lk, pc := update s.pc p pc }) (hnew : Line s Q p pc)
    (hat : ∀ b, pc.At b → pc₀.At b ∨ (s.buf b).dev = 1)
    (hwait : ∀ b, pc₀.Waits b → pc.Waits b ∨ b ∉ Q ∧ ¬ s.intr.Has b) (hold : ∀ b, pc₀ ≠ .start b)
    (hstart : ∀ b, pc ≠ .start b) :
    Beside { s with idelock := lk, pc := update s.pc p pc } Q A mem := by
  subst hpc
  exact ⟨hlocks, h.queue.move p pc lk s.device hnew hwait, h.dev_move pc rfl hat,
    h.drive.move rfl hold hstart rfl rfl rfl rfl rfl, h.buf, h.holder⟩

omit [DecidableEq P] [DecidableEq B] in
/-- **`ideintr` goes on**, with no buffer in its hands. -/
theorem intr {i i' : Intr B} {A' : List B} {lk : Option (Holder P)} {n : Nat} {dev : Device D}
    (hi : s.intr = i) (hold : ∀ b, ¬ i.Has b) (hnew : ∀ b, ¬ i'.Has b)
    (hlocks : Locks { s with idelock := lk, irq := n, device := dev, intr := i' })
    (hdrive : Drive { s with idelock := lk, irq := n, device := dev, intr := i' } Q mem.disk A') :
    Beside { s with idelock := lk, irq := n, device := dev, intr := i' } Q A' mem :=
  ⟨hlocks, h.queue.intr (hi ▸ hold) hnew lk n dev, h.dev, hdrive, h.buf, h.holder⟩

omit [DecidableEq P] in
/-- A buffer outside of `iderw` is locked, unlocked or changed. -/
theorem outside (hfree : ∀ q, ¬ (s.pc q).At b) (o : Option P) (x : Buf D)
    (hlocks : Locks { s with holder := update s.holder b o, buf := update s.buf b x }) :
    Beside { s with holder := update s.holder b o, buf := update s.buf b x } Q A
      { mem with holder := update mem.holder b o, buf := update mem.buf b x } := by
  have hbuf : ∀ c, c ≠ b → update s.buf b x c = s.buf c := fun c hc => update_of_ne hc _ _
  refine ⟨hlocks, h.queue.outside hfree o x, fun q c hat => ?_, ?_, by rw [← h.buf],
    by rw [← h.holder]⟩
  · change (update s.buf b x c).dev = 1
    rw [hbuf c (by rintro rfl; exact hfree q hat)]
    exact h.dev q c hat
  · refine h.drive.congr rfl rfl rfl rfl (fun c hc => hbuf c ?_) fun _ _ => Iff.rfl
    rintro rfl
    rcases hc with hc | hc
    · exact h.queue.not_mem hfree hc
    · exact h.queue.not_has hfree (by rw [hc]; rfl)

/-- **A request is done**, in both. -/
theorem transfer {x : D} {y : Buf D} (hi : s.intr = .transfer b) (hd : s.device = .ready x false)
    (hy : y = { s.buf b with
      valid := true, dirty := false
      data := if (s.buf b).dirty = true then (s.buf b).data else x })
    (hlocks : Locks { s with buf := update s.buf b y, intr := .wake b }) :
    ∃ mem', Beside { s with buf := update s.buf b y, intr := .wake b } Q [] mem'
      ∧ mem.step (.serve b) = some mem' ∧ [b] ++ Q = s.pending ++ Q ++ [] ∧ [b] ++ [] = A ++ [] := by
  subst hy
  have hhand := h.queue.handler
  rw [hi] at hhand
  obtain ⟨hb, hsync, q, hq, hw⟩ := hhand
  obtain ⟨x', hA, hn, hd', hland⟩ := h.drive.landed hi
  obtain ⟨rfl, -⟩ := Device.ready.inj (hd.symm.trans hd')
  have hdev := h.dev q b hw.at
  rw [← h.buf] at hsync hland hdev
  have hiderw := Mem.iderw_of_landed (by rw [h.holder, hq]) hsync hdev hland
  have hstep : mem.step (.serve b) = mem.iderw q b := by
    rw [Mem.step, h.holder, hq]
    rfl
  rw [s.pending_transfer hi, hA, List.append_nil]
  refine ⟨_, ?_, hstep.trans hiderw, rfl, rfl⟩
  refine ⟨hlocks, h.queue.transfer h.locks hi ⟨rfl, rfl⟩, fun q' c hat => ?_, ?_, ?_, h.holder⟩
  · change (update s.buf b _ c).dev = 1
    by_cases hc : c = b
    · rw [hc, update_self, ← h.buf]
      exact hdev
    · rw [update_of_ne hc]
      exact h.dev q' c hat
  · exact .rest hd hn rfl (.inr (.inl ⟨b, rfl⟩)) (.inr (.inr (.inl ⟨b, rfl⟩)))
  · rw [h.buf]

omit [DecidableEq P] in
/-- …locked or unlocked, as nothing is written to it. -/
theorem hold (hfree : ∀ q, ¬ (s.pc q).At b) (o : Option P)
    (hlocks : Locks { s with holder := update s.holder b o }) :
    Beside { s with holder := update s.holder b o } Q A { mem with holder := update mem.holder b o } := by
  have hs : update s.buf b (s.buf b) = s.buf := update_eq_self ..
  have hm : update mem.buf b (s.buf b) = mem.buf := by rw [h.buf, hs]
  have hout := h.outside hfree o (s.buf b) (by rw [hs]; exact hlocks)
  rwa [hs, hm] at hout

omit [DecidableEq P] in
/-- …or changed. -/
theorem edit (hfree : ∀ q, ¬ (s.pc q).At b) (x : Buf D)
    (hlocks : Locks { s with buf := update s.buf b x }) :
    Beside { s with buf := update s.buf b x } Q A { mem with buf := update mem.buf b x } := by
  have hs : update s.holder b (s.holder b) = s.holder := update_eq_self ..
  have hm : update mem.holder b (s.holder b) = mem.holder := by rw [h.holder, hs]
  have hout := h.outside hfree (s.holder b) x (by rw [hs]; exact hlocks)
  rwa [hs, hm] at hout

/-- **One step of the driver is one of the memory disk**, and the queue keeps the order. -/
theorem step (hs : Step havedisk1 s e s') (hp : Plain s e) :
    ∃ Q' A' mem', Beside s' Q' A' mem' ∧ mem.step e = some mem'
      ∧ served [e] ++ (s'.pending ++ Q') = s.pending ++ Q ++ appended [e]
      ∧ served [e] ++ A' = A ++ started [e] := by
  have hlocks := h.locks.step hs
  have hsame : s.pending ++ Q = s.pending ++ Q ++ [] := (List.append_nil _).symm
  have hA : A = A ++ [] := (List.append_nil A).symm
  cases hs with
  | @acquiresleep p b hidle hb =>
    have hfree := h.queue.unused (b := b) fun q hq => absurd (hb.symm.trans hq) (by simp)
    exact ⟨Q, A, _, h.hold hfree (some p) hlocks, rfl, hsame, hA⟩
  | @releasesleep p b hidle hb =>
    have hfree := h.queue.unused (b := b) fun q hq => Option.some.inj (hb.symm.trans hq) ▸ hidle
    exact ⟨Q, A, _, h.hold hfree none hlocks, rfl, hsame, hA⟩
  | @edit b x hfree => exact ⟨Q, A, _, h.edit (h.queue.unused hfree) x hlocks, rfl, hsame, hA⟩
  | @call p b hidle hb hsync hdev =>
    have hout : b ∉ Q := fun hc => by
      obtain ⟨-, q, hq, hw⟩ := h.queue.queued b hc
      rw [← Option.some.inj (hb.symm.trans hq), hidle] at hw
      exact hw
    exact ⟨Q, A, mem, h.move hidle hlocks ⟨hb, hout, hsync⟩ (fun _ hc => .inr (hc ▸ hp))
      (fun _ hc => hc.elim) nofun nofun, rfl, hsame, hA⟩
  | @acquire p b hpc hfree =>
    obtain ⟨hb, hout, hsync⟩ := h.queue.line_of hpc
    have hclear := (h.queue.clear hout).move p (.walk b none) (some (.proc p)) s.device
      ⟨hb, hout, hsync, update_self .., nofun⟩ fun c hc => by
        rw [show (State.pc { s with qnext := update s.qnext b none }) p = .lock b from hpc] at hc
        exact hc.elim
    exact ⟨Q, A, mem, ⟨hlocks, hclear, h.dev_move _ hpc fun _ hc => .inl hc,
      h.drive.move rfl (by rw [hpc]; exact nofun) nofun rfl rfl rfl rfl rfl, h.buf, h.holder⟩, rfl, hsame, hA⟩
  | @hop p b pp x hpc hx =>
    obtain ⟨hb, hout, hsync, hnext, hpp⟩ := h.queue.line_of hpc
    have hmem : x ∈ Q := h.queue.deref_mem hpp hx
    exact ⟨Q, A, mem, h.move hpc hlocks ⟨hb, hout, hsync, hnext, fun y hy => Option.some.inj hy ▸ hmem⟩
      (fun _ hc => .inl hc) (fun _ hc => hc.elim) nofun nofun, rfl, hsame, hA⟩
  | @append p b pp hpc hend =>
    have hline := h.queue.line_of hpc
    have hbuf : (s.assign b pp).buf = s.buf := by rw [State.assign_eq]
    have hholder : (s.assign b pp).holder = s.holder := by rw [State.assign_eq]
    have hpend : State.pending { s.assign b pp with pc := update s.pc p (.start b) } = s.pending := by
      rw [State.assign_eq]
      rfl
    refine ⟨Q ++ [b], A, mem, ⟨hlocks, h.queue.append h.locks hpc hend, fun q c hat => ?_,
      h.drive.append h.locks h.queue hpc hline.2.1, h.buf.trans hbuf.symm,
      h.holder.trans hholder.symm⟩, rfl, ?_, hA⟩
    · change ((s.assign b pp).buf c).dev = 1
      rw [hbuf]
      exact h.dev_move (.start b) hpc (fun _ hc => .inl hc) q c hat
    · rw [hpend, List.append_assoc]
      rfl
  | @start p b c x er hpc hq hd hc =>
    have hline := h.queue.line_of hpc
    have hqueue := h.queue.move p (.test b) s.idelock (.busy c (s.buf b).data)
      ⟨hline.1, .inl hline.2.1⟩ (by rw [hpc]; exact fun _ => .inl)
    exact ⟨Q, A ++ [b], mem, ⟨hlocks, hqueue, h.dev_move _ hpc fun _ hc => .inl hc,
      h.drive.start h.locks h.queue hpc hq hc, h.buf, h.holder⟩, rfl, hsame, rfl⟩
  | @skip p b hpc hq =>
    have hline := h.queue.line_of hpc
    exact ⟨Q, A, mem, ⟨hlocks, h.queue.move p _ s.idelock s.device ⟨hline.1, .inl hline.2.1⟩
      (by rw [hpc]; exact fun _ => .inl), h.dev_move _ hpc fun _ hc => .inl hc,
      h.drive.skip h.locks h.queue hpc hq, h.buf, h.holder⟩, rfl, hsame, hA⟩
  | @sleep p b hpc hsync =>
    have hline := h.queue.line_of hpc
    exact ⟨Q, A, mem, h.move hpc hlocks ⟨hline.1, .inl (hline.2.resolve_right hsync)⟩ (fun _ hc => .inl hc)
      (fun _ hc => .inl hc) nofun nofun, rfl, hsame, hA⟩
  | @kill p b hpc =>
    have hline := h.queue.line_of hpc
    have hhand := h.queue.handler
    refine ⟨Q, A, mem, h.move hpc hlocks ⟨hline.1, hline.2.imp_right (.imp_right fun hi => ?_)⟩
      (fun _ hc => .inl hc) (fun _ hc => .inl hc) nofun nofun, rfl, hsame, hA⟩
    rw [hi] at hhand
    exact hhand.1
  | @regain p b hpc hfree =>
    have hline := h.queue.line_of hpc
    have hout := h.locks.not_intr_of_free hfree
    refine ⟨Q, A, mem, h.move hpc hlocks ⟨hline.1, hline.2.imp_right (Or.resolve_left · fun hi => hout ?_)⟩
      (fun _ hc => .inl hc) (fun _ hc => .inl hc) nofun nofun, rfl, hsame, hA⟩
    rw [hi]
    trivial
  | @leave p b hpc hsync =>
    have hline := h.queue.line_of hpc
    have hout := h.locks.not_intr (p := p) (by rw [hpc]; trivial)
    refine ⟨Q, A, mem, h.move hpc hlocks ⟨hline.1, hsync⟩ (fun _ hc => .inl hc) (fun c hc => .inr ?_)
      nofun nofun, rfl, hsame, hA⟩
    obtain rfl := hc
    exact ⟨fun hb => (h.queue.queued b hb).1 hsync, fun hi => hout (hi.holds)⟩
  | @ret p b hpc =>
    exact ⟨Q, A, mem, h.move hpc hlocks trivial (fun _ hc => hc.elim) (fun _ hc => hc.elim) nofun nofun, rfl,
      hsame, hA⟩
  | @write c out er hd hw =>
    obtain rfl : er = false := hp
    exact ⟨Q, A, mem, ⟨hlocks, ⟨h.queue.seg, h.queue.line, h.queue.handler, h.queue.queued⟩, h.dev,
      h.drive.complete (fun _ => h.dev_queue) hd (.inl ⟨hw, rfl⟩), h.buf, h.holder⟩, rfl, hsame, hA⟩
  | @read c out er hd hw =>
    obtain rfl : er = false := hp
    exact ⟨Q, A, mem, ⟨hlocks, ⟨h.queue.seg, h.queue.line, h.queue.handler, h.queue.queued⟩, h.dev,
      h.drive.complete (fun _ => h.dev_queue) hd (.inr ⟨hw, rfl, rfl⟩), h.buf, h.holder⟩, rfl, hsame, hA⟩
  | @trap n hi hn =>
    exact ⟨Q, A, mem, h.intr hi (fun _ => id) (fun _ => id) hlocks (h.drive.trap hi hn), rfl,
      s.pending_append hi nofun Q, hA⟩
  | intrAcquire hi hfree =>
    exact ⟨Q, A, mem, h.intr hi (fun _ => id) (fun _ => id) hlocks (h.drive.acquire hi _), rfl,
      s.pending_append hi nofun Q, hA⟩
  | empty hi hq =>
    -- the interrupt was raised for the first of the queue, so there is one
    obtain ⟨b, rest, x, rfl, -⟩ := h.drive.raised (.inr hi)
    exact absurd (h.queue.idequeue_cons rfl) (by simp [hq])
  | @take b hi hq =>
    obtain ⟨b', rest, x, hQ, rfl, hn, hd, hl, -⟩ := h.drive.raised (.inr hi)
    obtain rfl : b = b' := Option.some.inj (hq.symm.trans (h.queue.idequeue_cons hQ))
    refine ⟨rest, [b], mem, ⟨hlocks, h.queue.take h.locks hi hQ, h.dev, .taken rfl hn hd hl, h.buf,
      h.holder⟩, rfl, ?_, hA⟩
    rw [hQ]
    exact s.pending_append hi nofun (b :: rest)
  | @served b hi hd =>
    obtain ⟨x, -, -, hready, -⟩ := h.drive.landed hi
    obtain ⟨mem', hnext⟩ := h.transfer hi hready (by rw [if_pos hd]) hlocks
    exact ⟨Q, [], mem', hnext⟩
  | @filled b x er hi hd hdev =>
    obtain ⟨x', -, -, hready, -⟩ := h.drive.landed hi
    obtain ⟨rfl, rfl⟩ := Device.ready.inj (hdev.symm.trans hready)
    obtain ⟨mem', hnext⟩ := h.transfer hi hready (by simp [hd]) hlocks
    exact ⟨Q, [], mem', hnext⟩
  | @wakeup b hi =>
    obtain ⟨rfl, ⟨x, er, hd⟩, hn, hm⟩ := h.drive.between (.inl ⟨b, hi⟩)
    refine ⟨Q, [], mem, ⟨hlocks, h.queue.wakeup hi, fun q c hat => h.dev q c ?_,
      .rest hd hn hm (.inr (.inr (.inl rfl))) (.inr (.inr (.inr rfl))), h.buf, h.holder⟩, rfl,
      s.pending_append hi nofun Q, hA⟩
    change Pc.At c (if s.pc q = .asleep b then .woken b else s.pc q) at hat
    split at hat
    · rename_i hpc
      rw [hpc]
      exact hat
    · exact hat
  | @next b c x er hi hq hd hc =>
    exact ⟨Q, A ++ [b], mem, h.intr hi (fun _ => id) (fun _ => id) hlocks
      (h.drive.next h.locks h.queue hi hq hc), rfl, s.pending_append hi nofun Q, rfl⟩
  | last hi hq =>
    obtain ⟨rfl, ⟨x, er, hd⟩, hn, hm⟩ := h.drive.between (.inr hi)
    exact ⟨Q, [], mem, h.intr hi (fun _ => id) (fun _ => id) hlocks
      (.rest hd hn hm (.inr (.inr (.inr rfl))) (.inl (h.queue.idequeue_none hq))), rfl,
      s.pending_append hi nofun Q, hA⟩
  | intrRelease hi =>
    exact ⟨Q, A, mem, h.intr hi (fun _ => id) (fun _ => id) hlocks (h.drive.release hi _), rfl,
      s.pending_append hi nofun Q, hA⟩

end Beside

end Xv6.Ide
