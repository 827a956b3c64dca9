import Xv6Ipc.Machinery.Ring
import Xv6Ipc.Machinery.Runs

/-!
# Drivers/Console — the line discipline

`consoleintr` and `consoleread` share one ring of characters and three counters that are never
reset:

    ─────┬──────────────────┬──────────────────┬─────
         r    committed     w   being edited   e          w - r ≤ e - r ≤ 128
    taken ▸   not yet read  ▸   may be erased  ▸ free

Both run under `cons.lock`, which a reader gives up only to sleep: here an interrupt is one step and
a reader takes a step for each turn of its loop.  Besides the ring the machine remembers the text
itself, all that was committed and the line being edited, and all that the readers have taken of it;
the keys act on that text as on any list.
-/

namespace Xv6.Console

open Function

def INPUT_BUF : Nat := 128

/-- `C(x)`: Control-x. -/
def C (x : Char) : UInt8 := x.toUInt8 - '@'.toUInt8

/-- The difference of two `uint`s. -/
def sub (a b : Nat) : Nat := (a + 0x100000000 - b) % 0x100000000

/-- `(c == '\r') ? '\n' : c`. -/
def cook (c : UInt8) : UInt8 := if c = '\r'.toUInt8 then '\n'.toUInt8 else c

/-- A character that ends a line. -/
def Ends (c : UInt8) : Prop := c = '\n'.toUInt8 ∨ c = C 'D'

instance (c : UInt8) : Decidable (Ends c) := inferInstanceAs (Decidable (_ ∨ _))

/-- `input`: the ring, its read index, its write index and its edit index. -/
structure Input where
  buf : Nat → UInt8
  r : Nat
  w : Nat
  e : Nat

namespace Input

/-- `input.e--`. -/
def back (i : Input) : Input := { i with e := (i.e + (0x100000000 - 1)) % 0x100000000 }

/-- The loop of kill-line, which `input.e` runs down to `input.w` at the latest. -/
def killLine : Nat → Input → Input
  | 0, i => i
  | k + 1, i =>
    if i.e ≠ i.w ∧ i.buf (i.back.e % INPUT_BUF) ≠ '\n'.toUInt8 then killLine k i.back else i

/-- `input.buf[input.e++ % INPUT_BUF] = c`. -/
def put (i : Input) (c : UInt8) : Input :=
  { i with buf := update i.buf (i.e % INPUT_BUF) c, e := (i.e + 1) % 0x100000000 }

/-- `input.w = input.e` after the character `c`, at the end of a line or of the ring. -/
def commit (i : Input) (c : UInt8) : Input :=
  if Ends c ∨ i.e = (i.r + INPUT_BUF) % 0x100000000 then { i with w := i.e } else i

/-- **What `consoleintr` does with a character.** -/
def key (i : Input) (c : UInt8) : Input :=
  if c = C 'P' then i
  else if c = C 'U' then i.killLine (sub i.e i.w)
  else if c = C 'H' ∨ c = 0x7f then if i.e ≠ i.w then i.back else i
  else if c ≠ 0 ∧ sub i.e i.r < INPUT_BUF then (i.put (cook c)).commit (cook c)
  else i

/-- `input.buf[input.r % INPUT_BUF]`. -/
def next (i : Input) : UInt8 := i.buf (i.r % INPUT_BUF)

/-- `input.r++`. -/
def take (i : Input) : Input := { i with r := (i.r + 1) % 0x100000000 }

/-- `input.r--`. -/
def untake (i : Input) : Input := { i with r := (i.r + (0x100000000 - 1)) % 0x100000000 }

end Input

/-! ## The text -/

/-- All that was committed so far, and the line being edited. -/
structure Text where
  committed : List UInt8
  line : List UInt8

/-- A character goes to the end of the line, which is committed if it ends there or fills the ring.
-/
def Text.put (t : Text) (taken : Nat) (c : UInt8) : Text :=
  if Ends c ∨ t.committed.length + t.line.length + 1 = taken + INPUT_BUF then
    ⟨t.committed ++ (t.line ++ [c]), []⟩
  else { t with line := t.line ++ [c] }

/-- **What a key means**, when `taken` characters have been read: to erase the line, to erase the
last of its characters, or to go to its end if there is room. -/
def Text.key (t : Text) (taken : Nat) (c : UInt8) : Text :=
  if c = C 'P' then t
  else if c = C 'U' then { t with line := [] }
  else if c = C 'H' ∨ c = 0x7f then { t with line := t.line.dropLast }
  else if c ≠ 0 ∧ t.committed.length + t.line.length < taken + INPUT_BUF then
    t.put taken (cook c)
  else t

/-- **The ring holds the text**: the committed characters that nobody took, and the line. -/
structure Holds (i : Input) (t : Text) (taken : List UInt8) : Prop where
  ring : Ring.Holds INPUT_BUF 0x100000000 ⟨i.buf, i.r, i.e⟩ (t.committed ++ t.line) taken
  taken : taken <+: t.committed
  w : i.w = t.committed.length % 0x100000000
  line : '\n'.toUInt8 ∉ t.line

section Holds

variable {i : Input} {t : Text} {taken : List UInt8} {c : UInt8} (h : Holds i t taken)
include h

theorem Holds.room : t.committed.length + t.line.length ≤ taken.length + 128 := by
  rw [← List.length_append]
  exact h.ring.room

/-- What the differences of the counters are. -/
theorem Holds.sub_e : sub i.e i.r = t.committed.length + t.line.length - taken.length := by
  rw [← List.length_append]
  exact h.ring.size (by decide)

theorem Holds.sub_w : sub i.w i.r = t.committed.length - taken.length := by
  have hroom := h.room
  rw [sub, h.w, show i.r = _ from h.ring.head]
  exact Ring.mod_sub_mod h.taken.length_le (by omega)

theorem Holds.sub_line : sub i.e i.w = t.line.length := by
  have hle := h.taken.length_le
  have hroom := h.room
  rw [sub, h.w, show i.e = _ from h.ring.tail, List.length_append,
    Ring.mod_sub_mod (Nat.le_add_right _ _) (by omega), Nat.add_sub_cancel_left]

/-- There is a line being edited just when the edit index is not at the write index. -/
theorem Holds.e_eq_w_iff : i.e = i.w ↔ t.line = [] := by
  have hlen := h.sub_line
  constructor
  · intro heq
    rw [heq, sub, Nat.add_sub_cancel_left, Nat.mod_self] at hlen
    exact List.length_eq_zero_iff.mp hlen.symm
  · intro hnil
    rw [h.w, show i.e = _ from h.ring.tail, hnil, List.append_nil]

/-- **Erasing the last character** of the line. -/
theorem Holds.back {l : List UInt8} {x : UInt8} (hl : t.line = l ++ [x]) :
    Holds i.back { t with line := l } taken := by
  have hring := h.ring
  rw [hl, ← List.append_assoc] at hring
  have hw : i.back.w = i.w := by rw [Input.back]
  refine ⟨hring.unsnoc (by decide) (h.taken.trans (List.prefix_append _ _)), h.taken,
    hw.trans h.w, ?_⟩
  intro hmem
  refine h.line ?_
  rw [hl]
  exact List.mem_append_left _ hmem

/-- **Kill-line erases the line**: there is no newline in it to stop at. -/
theorem Holds.killLine : Holds (i.killLine t.line.length) { t with line := [] } taken := by
  generalize hk : t.line.length = k
  induction k generalizing i t with
  | zero =>
    rw [← List.length_eq_zero_iff.mp hk]
    exact h
  | succ k ih =>
    obtain ⟨l, x, hl⟩ :=
      (List.eq_nil_or_concat' t.line).resolve_left (List.ne_nil_of_length_eq_add_one hk)
    have hring := h.ring
    rw [hl, ← List.append_assoc] at hring
    have hx : i.buf (i.back.e % INPUT_BUF) = x :=
      hring.last (by decide) (by decide) (h.taken.trans (List.prefix_append _ _))
    have hne : i.e ≠ i.w := by
      rw [Ne, h.e_eq_w_iff, hl]
      simp
    have hnl : x ≠ '\n'.toUInt8 := by
      rintro rfl
      exact h.line (by simp [hl])
    rw [Input.killLine, if_pos ⟨hne, by rwa [hx]⟩]
    have hlen : l.length = k := by simpa [hl] using hk
    exact ih (t := { t with line := l }) (h.back hl) hlen

/-- **A character goes to the end of the line**, which is committed with it or not. -/
theorem Holds.put (hroom : t.committed.length + t.line.length < taken.length + INPUT_BUF) :
    Holds ((i.put c).commit c) (t.put taken.length c) taken := by
  have hlen : (t.committed ++ t.line).length = t.committed.length + t.line.length :=
    List.length_append
  have hring := h.ring.snoc (by decide) (by decide) c
    (fun hfull => by
      have := (h.ring.full_iff (by decide)).mp hfull
      omega)
    (update_self (i.e % INPUT_BUF) c i.buf) fun j hj => update_of_ne hj c i.buf
  rw [List.append_assoc] at hring
  have hfull : (i.put c).e = ((i.put c).r + INPUT_BUF) % 0x100000000 ↔
      t.committed.length + t.line.length + 1 = taken.length + INPUT_BUF := by
    refine (hring.full_iff (by decide)).trans ?_
    rw [← List.append_assoc, List.length_append, hlen, List.length_singleton]
  simp only [Input.commit, Text.put, hfull]
  split
  · refine ⟨by rwa [List.append_nil], h.taken.trans (List.prefix_append _ _), hring.tail, ?_⟩
    exact List.not_mem_nil
  · next hno =>
    refine ⟨hring, h.taken, h.w, ?_⟩
    rw [List.mem_append, List.mem_singleton]
    rintro (hmem | rfl)
    · exact h.line hmem
    · exact hno (.inl (.inl rfl))

/-- **The ring follows the text.** -/
theorem Holds.key (c : UInt8) : Holds (i.key c) (t.key taken.length c) taken := by
  have hle := h.taken.length_le
  have hsub : sub i.e i.r < INPUT_BUF ↔
      t.committed.length + t.line.length < taken.length + INPUT_BUF := by
    rw [h.sub_e]
    omega
  simp only [Input.key, Text.key, hsub]
  split_ifs with hP hU hH hne hput
  · exact h
  · rw [h.sub_line]
    exact h.killLine
  · obtain ⟨l, x, hl⟩ := (List.eq_nil_or_concat' t.line).resolve_left (mt h.e_eq_w_iff.mpr hne)
    rw [hl, List.dropLast_concat]
    exact h.back hl
  · rw [h.e_eq_w_iff.mp (not_not.mp hne), List.dropLast_nil, ← h.e_eq_w_iff.mp (not_not.mp hne)]
    exact h
  · exact h.put hput.2
  · exact h

/-- …and so it does over all characters of an interrupt. -/
theorem Holds.keys (cs : List UInt8) :
    Holds (cs.foldl Input.key i) (cs.foldl (Text.key · taken.length) t) taken := by
  induction cs generalizing i t with
  | nil => exact h
  | cons c cs ih => exact ih (h.key c)

/-- What is committed and not taken. -/
theorem Holds.ring_getElem? {j : Nat} (hj : j < sub i.e i.r) :
    (t.committed.drop taken.length ++ t.line)[j]? = some (i.buf ((i.r + j) % INPUT_BUF)) := by
  have hle := h.taken.length_le
  have hcell := h.ring.cells (taken.length + j) (Nat.le_add_right _ _) (by
    rw [h.sub_e] at hj
    rw [List.length_append]
    omega)
  rw [← List.getElem?_drop, List.drop_append_of_le_length hle] at hcell
  rw [hcell, show i.r = _ from h.ring.head]
  change some (i.buf _) = some (i.buf _)
  rw [Nat.add_mod (taken.length % _), Nat.mod_mod_of_dvd _ (by decide), ← Nat.add_mod]

/-- There is something to read just when the read index is not at the write index. -/
theorem Holds.r_eq_w_iff : i.r = i.w ↔ t.committed.drop taken.length = [] := by
  have hle := h.taken.length_le
  have hsub := h.sub_w
  rw [List.drop_eq_nil_iff]
  constructor
  · intro heq
    rw [heq, sub, Nat.add_sub_cancel_left, Nat.mod_self] at hsub
    exact Nat.le_of_sub_eq_zero hsub.symm
  · intro hge
    rw [h.w, show i.r = _ from h.ring.head, le_antisymm hle hge]

/-- **Reading** takes the first character that is committed and not taken. -/
theorem Holds.take {l : List UInt8} (hl : t.committed.drop taken.length = c :: l) :
    i.next = c ∧ Holds i.take t (taken ++ [c]) := by
  have htext : taken ++ c :: l = t.committed := by
    rw [← hl]
    exact List.prefix_iff_eq_append.mp h.taken
  have hlen : taken.length < t.committed.length := by
    rw [← htext, List.length_append, List.length_cons]
    omega
  have hnext : i.next = c := by
    have hcell := h.ring_getElem? (j := 0) (by rw [h.sub_e]; omega)
    rw [hl] at hcell
    exact (Option.some.inj hcell).symm
  have hne : i.r ≠ i.e := fun heq => by
    have hall := (h.ring.empty_iff (by decide)).mp heq
    rw [hall, List.length_append] at hlen
    omega
  have hring := h.ring.uncons (by decide) (by decide) hne
  have hlast : i.buf (i.r % INPUT_BUF) = c := hnext
  refine ⟨hnext, ?_, ⟨l, ?_⟩, h.w, h.line⟩
  · rw [← hlast]
    exact hring
  · rw [List.append_assoc]
    exact htext

theorem Holds.r_lt : i.r < 0x100000000 := by
  rw [show i.r = _ from h.ring.head]
  exact Nat.mod_lt _ (by decide)

/-- Un-reading undoes it. -/
theorem Holds.untake : i.take.untake = i := by
  have hr := h.r_lt
  obtain ⟨buf, r, w, e⟩ := i
  simp only [Input.take, Input.untake, Input.mk.injEq, true_and, and_true] at hr ⊢
  omega

end Holds

/-! ## Readers -/

/-- A call of `consoleread`: the size it was given, what is left of it, and the bytes it has stored.
-/
structure Reader where
  target : Int
  n : Int
  dst : List UInt8

/-- The console and its readers.  `delivered` is all that was stored in any reader's buffer. -/
structure State (P : Type) where
  input : Input
  reader : P → Option Reader
  killed : P → Bool
  text : Text
  taken : List UInt8
  delivered : List UInt8

variable {P : Type} [DecidableEq P]

namespace State

/-- `consoleintr` with the characters that `getc` has. -/
def consoleintr (s : State P) (cs : List UInt8) : State P :=
  { s with
    input := cs.foldl Input.key s.input, text := cs.foldl (Text.key · s.taken.length) s.text }

/-- What is committed and not taken. -/
def unread (s : State P) : List UInt8 := s.text.committed.drop s.taken.length

/-- The end of a call. -/
def leave (s : State P) (p : P) : State P := { s with reader := update s.reader p none }

/-- Store a byte: `*dst++ = c; --n`. -/
def store (s : State P) (p : P) (x : Reader) (c : UInt8) : State P :=
  { s with
    reader := update s.reader p (some ⟨x.target, x.n - 1, x.dst ++ [c]⟩)
    delivered := s.delivered ++ [c] }

/-- `c = input.buf[input.r++ % INPUT_BUF]`. -/
def take (s : State P) : State P :=
  { s with input := s.input.take, taken := s.taken ++ [s.input.next] }

/-- **A turn of the loop of `consoleread`**, and what the call returns if it is the last, with the
bytes it has stored. -/
def turn (s : State P) (p : P) (x : Reader) : State P × Option (List UInt8 × Int) :=
  if 0 < x.n then
    if s.input.r = s.input.w then
      if s.killed p then (s.leave p, some (x.dst, -1))
      else (s, none)
    else if s.input.next = C 'D' then
      if x.n < x.target then
        ({ s.leave p with input := s.input.take.untake }, some (x.dst, x.target - x.n))
      else (s.take.leave p, some (x.dst, x.target - x.n))
    else if s.input.next = '\n'.toUInt8 then
      ((s.take.store p x s.input.next).leave p,
        some (x.dst ++ [s.input.next], x.target - (x.n - 1)))
    else (s.take.store p x s.input.next, none)
  else (s.leave p, some (x.dst, x.target - x.n))

end State

/-- What happens: an interrupt, a call of `consoleread(ip, dst, n)`, a turn of its loop, a `kill`.
-/
inductive Event (P : Type) where
  | intr (cs : List UInt8)
  | read (p : P) (n : Int)
  | turn (p : P)
  | kill (p : P)

/-- **One step.** -/
inductive Step : State P → Event P → State P → Prop
  | intr (s cs) : Step s (.intr cs) (s.consoleintr cs)
  | read {s p} (n) : s.reader p = none →
    Step s (.read p n) { s with reader := update s.reader p (some ⟨n, n, []⟩) }
  | turn {s p x} : s.reader p = some x → Step s (.turn p) (s.turn p x).1
  | kill (s p) : Step s (.kill p) { s with killed := update s.killed p true }

/-- Nothing typed, nobody reading. -/
structure Start (s : State P) : Prop where
  r : s.input.r = 0
  w : s.input.w = 0
  e : s.input.e = 0
  reader : ∀ p, s.reader p = none
  text : s.text = ⟨[], []⟩
  taken : s.taken = []
  delivered : s.delivered = []

/-- A call under way: it has stored what is gone of its size, and no newline. -/
structure Reader.Fits (x : Reader) : Prop where
  length : (x.dst.length : Int) = x.target - x.n
  size : 0 ≤ x.n ∨ x.dst = []
  newline : '\n'.toUInt8 ∉ x.dst

/-- What every step keeps. -/
structure Inv (s : State P) : Prop where
  holds : Holds s.input s.text s.taken
  delivered : s.delivered = s.taken.filter (· ≠ C 'D')
  reader : ∀ p x, s.reader p = some x → x.Fits

section Inv

variable {s s' : State P} {a : Event P} {p : P} {x : Reader}

omit [DecidableEq P] in
theorem Start.inv (h : Start s) : Inv s where
  holds := by
    refine ⟨?_, ?_, ?_, ?_⟩
    · rw [h.r, h.e, h.text, h.taken]
      exact .nil _
    · rw [h.taken]
      exact List.nil_prefix
    · rw [h.w, h.text]
      rfl
    · rw [h.text]
      exact List.not_mem_nil
  delivered := by rw [h.delivered, h.taken, List.filter_nil]
  reader q y hy := by rw [h.reader] at hy; exact nomatch hy

section

variable (h : Inv s)
include h

/-- A reader that comes or goes on. -/
theorem Inv.reader_update {o : Option Reader} (ho : ∀ y, o = some y → y.Fits) (q : P) (y : Reader)
    (hy : update s.reader p o q = some y) : y.Fits := by
  by_cases hq : q = p
  · subst hq
    rw [update_self] at hy
    exact ho y hy
  · rw [update_of_ne hq] at hy
    exact h.reader q y hy

theorem Inv.leave : Inv (s.leave p) :=
  ⟨h.holds, h.delivered, h.reader_update (fun _ hy => nomatch hy)⟩

omit [DecidableEq P] in
/-- What there is to read, when there is something. -/
theorem Inv.unread_eq (hne : s.input.r ≠ s.input.w) :
    ∃ l, s.unread = s.input.next :: l ∧ Holds s.take.input s.text s.take.taken := by
  cases hl : s.unread with
  | nil => exact absurd (h.holds.r_eq_w_iff.mpr hl) hne
  | cons c l =>
    obtain ⟨hnext, hholds⟩ := h.holds.take hl
    refine ⟨l, by rw [hnext], ?_⟩
    rw [State.take, hnext]
    exact hholds

omit [DecidableEq P] in
/-- **A character is taken**, and stored unless it is a `^D`. -/
theorem Inv.take (hne : s.input.r ≠ s.input.w) {d : List UInt8} {f : P → Option Reader}
    (hd : d = if s.input.next = C 'D' then s.delivered else s.delivered ++ [s.input.next])
    (hf : ∀ q y, f q = some y → y.Fits) :
    Inv { s.take with delivered := d, reader := f } := by
  obtain ⟨-, -, hholds⟩ := h.unread_eq hne
  refine ⟨hholds, ?_, hf⟩
  change d = (s.taken ++ [s.input.next]).filter _
  rw [List.filter_append, ← h.delivered, hd]
  split
  · next hD => rw [hD]; exact (List.append_nil _).symm
  · next hD => rw [List.filter_cons_of_pos (by simpa using hD), List.filter_nil]

/-- **A turn of a reader keeps the invariant.** -/
theorem Inv.turn (hx : s.reader p = some x) : Inv (s.turn p x).1 := by
  have hfits := h.reader p x hx
  have hlen := hfits.length
  rw [State.turn]
  split_ifs with hn hrw hk hD hlt hnl
  · exact h.leave
  · exact h
  · rw [h.holds.untake]
    exact h.leave
  · exact h.take hrw (if_pos hD).symm h.leave.reader
  · refine h.take hrw (if_neg hD).symm fun q y hy => ?_
    simp only [State.store, update_idem] at hy
    exact h.leave.reader q y hy
  · refine h.take hrw (if_neg hD).symm (h.reader_update fun y hy => ?_)
    obtain rfl := Option.some.inj hy
    refine ⟨?_, .inl (Int.sub_nonneg_of_le hn), ?_⟩
    · simp only [List.length_append, List.length_singleton]
      omega
    · rw [List.mem_append, List.mem_singleton]
      rintro (hmem | heq)
      · exact hfits.newline hmem
      · exact hnl heq.symm
  · exact h.leave

/-- **Every step keeps the invariant.** -/
theorem Inv.step (hstep : Step s a s') : Inv s' := by
  cases hstep with
  | intr cs => exact ⟨h.holds.keys cs, h.delivered, h.reader⟩
  | read n hp =>
    refine ⟨h.holds, h.delivered, h.reader_update fun y hy => ?_⟩
    obtain rfl := Option.some.inj hy
    exact ⟨by simp, .inr rfl, List.not_mem_nil⟩
  | turn hx => exact h.turn hx
  | kill => exact ⟨h.holds, h.delivered, h.reader⟩

end

end Inv

theorem inv_of_reach {s : State P} (h : Runs.Reach Start Step s) : Inv s :=
  h.keeps (fun _ hs => hs.inv) fun _ _ _ hs hstep => hs.step hstep

/-! ## The discipline -/

namespace Input

variable (i : Input)

theorem back_eq : i.back.buf = i.buf ∧ i.back.r = i.r := by rw [back]; exact ⟨rfl, rfl⟩

theorem killLine_eq (k : Nat) : (i.killLine k).buf = i.buf ∧ (i.killLine k).r = i.r := by
  induction k generalizing i with
  | zero => exact ⟨rfl, rfl⟩
  | succ k ih =>
    rw [killLine]
    split
    · exact ⟨(ih i.back).1.trans i.back_eq.1, (ih i.back).2.trans i.back_eq.2⟩
    · exact ⟨rfl, rfl⟩

/-- A key moves no character that is in the ring, and does not read. -/
theorem key_eq (c : UInt8) : (i.key c).r = i.r ∧
    ((i.key c).buf = i.buf ∨
      sub i.e i.r < INPUT_BUF ∧ (i.key c).buf = update i.buf (i.e % INPUT_BUF) (cook c)) := by
  rw [key]
  split_ifs with hP hU hH hne hput
  · exact ⟨rfl, .inl rfl⟩
  · exact ⟨(i.killLine_eq _).2, .inl (i.killLine_eq _).1⟩
  · exact ⟨i.back_eq.2, .inl i.back_eq.1⟩
  · exact ⟨rfl, .inl rfl⟩
  · rw [commit]
    split
    · exact ⟨rfl, .inr ⟨hput.2, rfl⟩⟩
    · exact ⟨rfl, .inr ⟨hput.2, rfl⟩⟩
  · exact ⟨rfl, .inl rfl⟩

end Input

/-- What was committed stays so. -/
theorem Text.prefix_key (t : Text) (taken : Nat) (c : UInt8) :
    t.committed <+: (t.key taken c).committed := by
  rw [key]
  split_ifs
  · exact List.prefix_rfl
  · exact List.prefix_rfl
  · exact List.prefix_rfl
  · rw [put]
    split
    · exact List.prefix_append _ _
    · exact List.prefix_rfl
  · exact List.prefix_rfl

/-- **How a read ends**, with which bytes and which result: at its size, at a newline, or at a `^D`,
which is taken if there is nothing before it and left to the next read if there is; or else its
process was killed while it waited. -/
inductive Ended (s : State P) (p : P) (x : Reader) : List UInt8 → Int → Prop
  | size : x.dst.length = x.target.toNat → Ended s p x x.dst x.dst.length
  | newline : s.unread.head? = some '\n'.toUInt8 → x.dst.length < x.target →
    Ended s p x (x.dst ++ ['\n'.toUInt8]) (x.dst.length + 1)
  | eof : s.unread.head? = some (C 'D') →
    (s.turn p x).1.taken = (if x.dst = [] then s.taken ++ [C 'D'] else s.taken) →
    Ended s p x x.dst x.dst.length
  | killed : s.killed p = true → s.unread = [] → Ended s p x x.dst (-1)

/-- **The line discipline**, in a state: the order of the counters, what the ring holds between
them, what a key cannot touch, what was delivered, and how reads end. -/
structure Disciplined (s : State P) : Prop where
  counters : sub s.input.w s.input.r ≤ sub s.input.e s.input.r ∧ sub s.input.e s.input.r ≤ INPUT_BUF
  unread : s.unread.length = sub s.input.w s.input.r
  line : (s.unread ++ s.text.line).length = sub s.input.e s.input.r
  ring : ∀ j < sub s.input.e s.input.r,
    (s.unread ++ s.text.line)[j]? = some (s.input.buf ((s.input.r + j) % INPUT_BUF))
  edits : ∀ c, (s.input.key c).r = s.input.r ∧
    sub s.input.w s.input.r ≤ sub (s.input.key c).w s.input.r ∧
    sub (s.input.key c).w s.input.r ≤ sub (s.input.key c).e s.input.r
  keeps : ∀ c, ∀ j < sub s.input.e s.input.r,
    (s.input.key c).buf ((s.input.r + j) % INPUT_BUF) = s.input.buf ((s.input.r + j) % INPUT_BUF)
  delivered : s.taken <+: s.text.committed ∧ s.delivered = s.taken.filter (· ≠ C 'D')
  ended : ∀ p x dst r, s.reader p = some x → (s.turn p x).2 = some (dst, r) → Ended s p x dst r
  eof : ∀ p x, s.reader p = some x → s.unread.head? = some (C 'D') → x.dst = [] →
    (s.turn p x).2 = some ([], 0)

section Disciplined

variable {s : State P} (h : Inv s)
include h

omit [DecidableEq P] in
theorem Inv.counters :
    sub s.input.w s.input.r ≤ sub s.input.e s.input.r ∧ sub s.input.e s.input.r ≤ INPUT_BUF := by
  have hroom := h.holds.room
  rw [h.holds.sub_w, h.holds.sub_e, INPUT_BUF]
  omega

omit [DecidableEq P] in
theorem Inv.edits (c : UInt8) : (s.input.key c).r = s.input.r ∧
    sub s.input.w s.input.r ≤ sub (s.input.key c).w s.input.r ∧
    sub (s.input.key c).w s.input.r ≤ sub (s.input.key c).e s.input.r := by
  have hr := (s.input.key_eq c).1
  have hkey := h.holds.key c
  have hle := (s.text.prefix_key s.taken.length c).length_le
  have hw := hkey.sub_w
  have he := hkey.sub_e
  rw [hr] at hw he
  rw [hw, he, h.holds.sub_w]
  exact ⟨hr, by omega, by omega⟩

omit [DecidableEq P] in
theorem Inv.keeps (c : UInt8) (j : Nat) (hj : j < sub s.input.e s.input.r) :
    (s.input.key c).buf ((s.input.r + j) % INPUT_BUF) =
      s.input.buf ((s.input.r + j) % INPUT_BUF) := by
  have he : s.input.e < 0x100000000 := by
    rw [show s.input.e = _ from h.holds.ring.tail]
    exact Nat.mod_lt _ (by decide)
  have hr := h.holds.r_lt
  rcases (s.input.key_eq c).2 with hbuf | ⟨hlt, hbuf⟩
  · rw [hbuf]
  · rw [hbuf, update_of_ne]
    simp only [sub, INPUT_BUF] at hj hlt ⊢
    omega

theorem Inv.ended (p : P) (x : Reader) (dst : List UInt8) (r : Int) (hx : s.reader p = some x)
    (hret : (s.turn p x).2 = some (dst, r)) : Ended s p x dst r := by
  have hlen := (h.reader p x hx).length
  have hsize := (h.reader p x hx).size
  have hhead (hne : s.input.r ≠ s.input.w) : s.unread.head? = some s.input.next := by
    obtain ⟨l, hl, -⟩ := h.unread_eq hne
    rw [hl]
    rfl
  generalize hturn : s.turn p x = q at hret
  have hq := hturn
  rw [State.turn] at hq
  split_ifs at hq with hn hrw hk hD hlt hnl
  all_goals
    subst hq
    cases hret
  · exact .killed hk (h.holds.r_eq_w_iff.mp hrw)
  · rw [← hlen]
    refine .eof (by rw [hhead hrw, hD]) ?_
    rw [hturn, h.holds.untake, if_neg (List.ne_nil_of_length_pos (by omega))]
    rfl
  · rw [← hlen]
    refine .eof (by rw [hhead hrw, hD]) ?_
    rw [hturn, if_pos (List.eq_nil_of_length_eq_zero (by omega)), ← hD]
    simp only [State.leave, State.take]
  · rw [show x.target - (x.n - 1) = x.dst.length + 1 by omega, hnl]
    exact .newline (by rw [hhead hrw, hnl]) (by omega)
  · rw [← hlen]
    refine .size ?_
    rcases hsize with hpos | hnil
    · omega
    · rw [hnil, List.length_nil] at hlen ⊢
      omega

theorem Inv.eof (p : P) (x : Reader) (hx : s.reader p = some x)
    (hhead : s.unread.head? = some (C 'D')) (hdst : x.dst = []) :
    (s.turn p x).2 = some ([], 0) := by
  have hlen := (h.reader p x hx).length
  rw [hdst] at hlen
  have hn : x.target - x.n = 0 := hlen.symm
  have hne : s.input.r ≠ s.input.w := fun heq => by
    rw [show s.unread = [] from h.holds.r_eq_w_iff.mp heq] at hhead
    exact nomatch hhead
  obtain ⟨l, hl, -⟩ := h.unread_eq hne
  rw [hl] at hhead
  rw [State.turn, if_neg hne, if_pos (Option.some.inj hhead),
    if_neg (show ¬ x.n < x.target by omega), hdst, hn]
  split
  · rfl
  · rfl

end Disciplined

/-- **The console keeps its line discipline**, whatever is typed and whoever reads. -/
theorem console_discipline {s : State P} (h : Runs.Reach Start Step s) : Disciplined s := by
  have hinv := inv_of_reach h
  have hle := hinv.holds.taken.length_le
  have hunread : s.unread.length = s.text.committed.length - s.taken.length := List.length_drop
  refine ⟨hinv.counters, ?_, ?_, fun j hj => hinv.holds.ring_getElem? hj, hinv.edits, hinv.keeps,
    ⟨hinv.holds.taken, hinv.delivered⟩, hinv.ended, hinv.eof⟩
  · rw [hunread, hinv.holds.sub_w]
  · rw [List.length_append, hunread, hinv.holds.sub_e]
    omega

/-- A console before anything was typed. -/
def fresh : State Unit := ⟨⟨fun _ => 0, 0, 0, 0⟩, fun _ => none, fun _ => false, ⟨[], []⟩, [], []⟩

/-- …and a reader of one byte, killed before anything is. -/
def abandoned : State Unit :=
  { fresh with reader := fun _ => some ⟨1, 1, []⟩, killed := fun _ => true }

theorem reach_abandoned : Runs.Reach Start Step abandoned := by
  have hstart : Start fresh := ⟨rfl, rfl, rfl, fun _ => rfl, rfl, rfl, rfl⟩
  have hend := ((Runs.Reach.init hstart).step (Step.read (p := ()) 1 rfl)).step (Step.kill _ ())
  convert hend using 1
  simp [abandoned, fresh, funext_iff]

theorem console_discipline_abandoned : Disciplined abandoned :=
  console_discipline reach_abandoned

/-- **A read that ends nowhere**: with nothing typed at all it returns `-1`, not at its size of one
byte. -/
theorem killed_read_returns : ∃ s : State Unit, Runs.Reach Start Step s ∧
    s.text.committed = [] ∧ ∃ x, s.reader () = some x ∧ x.target = 1 ∧
      (s.turn () x).2 = some ([], -1) :=
  ⟨abandoned, reach_abandoned, rfl, ⟨1, 1, []⟩, rfl, rfl, by decide⟩

end Xv6.Console
