import Xv6Ipc.Machinery.Runs
import Xv6Ipc.Process.State

/-!
# Programs/Primes — `primecalc` and `primecom` over three shared cells

`primestart` shares an array `niz`, a counter `index` and a cell `komanda`.  `primecalc` stores what it
finds and then where it is; `primecom` reads both, and writes commands that `primecalc` polls:

    primecalc   niz[n] = i ;  *idx = n ;  n++        index = 0, 0, 1, 2, …
    primecom    no: *idx     value: niz[*idx - 1]

The one side takes `index` for a position, the other for a count, so that the last value stored is
never reported.  Every read or store of a shared cell is a step of its own.
-/

namespace Xv6.Primes

open Runs Function

/-! ## The programs -/

/-- How many values the array has room for. -/
def NIZ : Nat := 100000

/-- The shared cells.  `front` is the word before the array. -/
structure Cells where
  niz : Nat → Nat
  front : Nat
  index : Nat
  komanda : Nat

/-- `niz[k]`, for an unsigned `k`. -/
def Cells.at (c : Cells) (k : Nat) : Nat := if k = 0xFFFFFFFF then c.front else c.niz k

/-- The lines of `primecalc` at which it is about to touch a shared cell, or to test a number. -/
inductive CalcPc where
  | test
  | storeNiz
  | storeIndex
  | readKomanda
  | paused
  | exited
  deriving DecidableEq, Repr

/-- `primecalc`. -/
structure Calc where
  pc : CalcPc
  i : Nat
  n : Nat

/-- What the loop over `j` leaves in `flag`; it has no turn for `i == 2`. -/
def flag (i : Nat) : Bool := (List.range' 2 (i / 2 - 2)).all fun j => i % j ≠ 0

/-- What `primecalc` goes on to with the number it tests. -/
def Calc.tested (k : Calc) : Calc := { k with pc := if flag k.i then .storeNiz else .readKomanda }

/-- `++i`. -/
def Calc.next (k : Calc) : Calc := { k with pc := .test, i := k.i + 1 }

/-- What it makes of a command that it reads after a number. -/
def Calc.obey (k : Calc) (komanda : Nat) : Calc :=
  if komanda = 4 then { k with pc := .paused }
  else if komanda = 5 then { k with pc := .exited }
  else k.next

/-- …and of one that it reads while it pauses. -/
def Calc.poll (k : Calc) (komanda : Nat) : Calc :=
  if komanda = 3 then k.next
  else if komanda = 5 then { k with pc := .exited }
  else k

/-- What the user may ask for. -/
inductive Request where
  | latest
  | prime (n : Int)
  | resume
  | pause
  | end
  deriving DecidableEq, Repr

/-- `strcmp`, with the first string for a length. -/
def strcmp (p q : List Nat) : Int := strncmp p q (p.length + 1)

/-- The loop of `solve` over the digits. -/
def digitsFrom : Int → List Nat → Option Int
  | _, [] => none
  | n, c :: com =>
    if c = 10 then some n
    else if 48 ≤ c ∧ c ≤ 57 then digitsFrom (i32 (u32 (n * 10 + c - 48))) com
    else none

/-- `solve`. -/
def solve (com : List Nat) : Option Request :=
  if strcmp (cstr "latest\n") com = 0 then some .latest
  else if strcmp (cstr "resume\n") com = 0 then some .resume
  else if strcmp (cstr "pause\n") com = 0 then some .pause
  else if strcmp (cstr "end\n") com = 0 then some .end
  else if com.take 6 = cstr "prime " then (digitsFrom 0 (com.drop 6)).map .prime
  else none

/-- The number that decimal digits are. -/
def decimal (ds : List Nat) (n : Nat) : Nat := ds.foldl (fun n d => n * 10 + d) n

/-- What a read of `index` found, and how many values had been announced by then. -/
structure Read where
  index : Nat
  count : Nat

/-- The lines of `primecom`.  The arguments of `printf` for `latest` are evaluated in any order: the
number, and the position and then the value at it. -/
inductive ComPc where
  | ready
  | latest (number pos : Option Read) (value : Option Nat)
  | prime (n : Int)
  | missing (n : Int) (r : Read)
  | found (n : Int) (r : Read)
  | write (komanda : Nat)
  | exited

/-- Where a request leads. -/
def ComPc.start : Option Request → ComPc
  | none => .ready
  | some .latest => .latest none none none
  | some (.prime n) => .prime n
  | some .resume => .write 3
  | some .pause => .write 4
  | some .end => .write 5

/-- What `primecom` prints. -/
inductive Out where
  | latest (number value : Nat)
  | prime (n : Int) (value : Nat)
  | missing (n : Int) (upTo : Nat)
  deriving DecidableEq, Repr

/-- Both programs.  `stored` lists the values that `primecalc` has stored and announced. -/
structure State where
  cells : Cells
  primecalc : Calc
  primecom : ComPc
  stored : List Nat

/-- What happens. -/
inductive Event where
  | test
  | store
  | announce
  | obey
  | poll
  | fault
  | line (com : List Nat)
  | read
  | print (o : Out)
  | write (komanda : Nat)
  deriving DecidableEq, Repr

/-- A read of `index`. -/
def State.look (s : State) : Read := ⟨s.cells.index, s.stored.length⟩

/-- **One step of either program.**  A store past the end of the array may fault. -/
inductive Step : State → Event → State → Prop
  | test {s} : s.primecalc.pc = .test → Step s .test { s with primecalc := s.primecalc.tested }
  | store {s} : s.primecalc.pc = .storeNiz →
    Step s .store
      { s with
        cells := { s.cells with niz := update s.cells.niz s.primecalc.n s.primecalc.i }
        primecalc := { s.primecalc with pc := .storeIndex } }
  | fault {s} : s.primecalc.pc = .storeNiz → NIZ ≤ s.primecalc.n →
    Step s .fault { s with primecalc := { s.primecalc with pc := .exited } }
  | announce {s} : s.primecalc.pc = .storeIndex →
    Step s .announce
      { s with
        cells := { s.cells with index := s.primecalc.n }
        primecalc := { s.primecalc with pc := .readKomanda, n := s.primecalc.n + 1 }
        stored := s.stored ++ [s.primecalc.i] }
  | obey {s} : s.primecalc.pc = .readKomanda →
    Step s .obey { s with primecalc := s.primecalc.obey s.cells.komanda }
  | poll {s} : s.primecalc.pc = .paused →
    Step s .poll { s with primecalc := s.primecalc.poll s.cells.komanda }
  | line {s com} : s.primecom = .ready →
    Step s (.line com) { s with primecom := .start (solve com) }
  | number {s pos value} : s.primecom = .latest none pos value →
    Step s .read { s with primecom := .latest (some s.look) pos value }
  | pos {s number} : s.primecom = .latest number none none →
    Step s .read { s with primecom := .latest number (some s.look) none }
  | value {s number r} : s.primecom = .latest number (some r) none →
    Step s .read
      { s with primecom := .latest number (some r) (some (s.cells.at (u32 (r.index - 1)))) }
  | latest {s r r' v} : s.primecom = .latest (some r) (some r') (some v) →
    Step s (.print (.latest r.index v)) { s with primecom := .ready }
  | compare {s n} : s.primecom = .prime n →
    Step s .read
      { s with primecom := if s.cells.index < u32 n then .missing n s.look else .found n s.look }
  | missing {s n r} : s.primecom = .missing n r →
    Step s (.print (.missing n s.cells.index)) { s with primecom := .ready }
  | found {s n r} : s.primecom = .found n r →
    Step s (.print (.prime n (s.cells.at (u32 (u32 n - 1))))) { s with primecom := .ready }
  | write {s komanda} : s.primecom = .write komanda →
    Step s (.write komanda)
      { s with
        cells := { s.cells with komanda := komanda }
        primecom := if komanda = 5 then .exited else .ready }

/-- What `primestart` leaves behind.  The word before the array is the size in its `malloc` header. -/
structure Start (s : State) : Prop where
  niz : ∀ k, s.cells.niz k = 0
  front : s.cells.front = 50001
  index : s.cells.index = 0
  komanda : s.cells.komanda = 0
  primecalc : s.primecalc = ⟨.test, 2, 0⟩
  primecom : s.primecom = .ready
  stored : s.stored = []

variable {s s' : State} {e : Event} {o : Out} {req : Request} {c : Nat}

/-! ## What the cells hold -/

/-- `primecalc` is at a number it has not stored. -/
def Calc.Fresh (k : Calc) : Prop := k.pc = .test ∨ k.pc = .storeNiz ∨ k.pc = .storeIndex

/-- **The array holds the values stored**, in increasing order from `2` on, and `index` is the position
of the last. -/
structure Kept (s : State) : Prop where
  n : s.primecalc.n = s.stored.length
  niz : ∀ k < s.stored.length, s.stored[k]? = some (s.cells.niz k)
  pending : s.primecalc.pc = .storeIndex → s.cells.niz s.primecalc.n = s.primecalc.i
  index : s.cells.index = s.stored.length - 1
  front : s.cells.front = 50001
  sorted : s.stored.Pairwise (· < ·)
  le : ∀ v ∈ s.stored, v ≤ s.primecalc.i
  lt : s.primecalc.Fresh → ∀ v ∈ s.stored, v < s.primecalc.i
  first : s.stored = [] → s.primecalc.i = 2 ∧ s.primecalc.Fresh
  two : ∀ v, s.stored[0]? = some v → v = 2

theorem Kept.of_start (h : Start s) : Kept s := by
  have hcalc := h.primecalc
  refine ⟨?_, ?_, ?_, ?_, h.front, ?_, ?_, ?_, ?_, ?_⟩ <;> simp [h.stored, hcalc, h.index, Calc.Fresh]

/-- `primecalc` goes on to another line, or another number. -/
theorem Kept.goto (h : Kept s) {k : Calc} (hn : k.n = s.primecalc.n) (hi : s.primecalc.i ≤ k.i)
    (hpc : k.pc ≠ .storeIndex) (hlt : k.Fresh → s.primecalc.Fresh ∨ s.primecalc.i < k.i)
    (hfirst : s.stored = [] → k.i = 2 ∧ k.Fresh) : Kept { s with primecalc := k } where
  n := hn.trans h.n
  niz := h.niz
  pending he := absurd he hpc
  index := h.index
  front := h.front
  sorted := h.sorted
  le v hv := (h.le v hv).trans hi
  lt hf v hv := (hlt hf).elim (fun hf => (h.lt hf v hv).trans_le hi) ((h.le v hv).trans_lt ·)
  first := hfirst
  two := h.two

theorem Kept.test (h : Kept s) (hpc : s.primecalc.pc = .test) :
    Kept { s with primecalc := s.primecalc.tested } := by
  refine h.goto rfl le_rfl ?_ (fun _ => .inl (.inl hpc)) fun hnil => ?_
  · rw [Calc.tested]
    split <;> simp
  · obtain ⟨hi, -⟩ := h.first hnil
    have hflag : flag s.primecalc.i = true := by
      rw [hi]
      decide
    refine ⟨hi, .inr (.inl ?_)⟩
    rw [Calc.tested, if_pos hflag]

/-- A value stored in the array, not yet announced. -/
theorem Kept.store (h : Kept s) (hpc : s.primecalc.pc = .storeNiz) :
    Kept { s with
      cells := { s.cells with niz := update s.cells.niz s.primecalc.n s.primecalc.i }
      primecalc := { s.primecalc with pc := .storeIndex } } where
  n := h.n
  niz k hk := by
    have hne : k ≠ s.primecalc.n := by
      rw [h.n]
      exact Nat.ne_of_lt hk
    exact (h.niz k hk).trans (congrArg some (update_of_ne hne _ _).symm)
  pending _ := update_self _ _ _
  index := h.index
  front := h.front
  sorted := h.sorted
  le := h.le
  lt _ := h.lt (.inr (.inl hpc))
  first hnil := ⟨(h.first hnil).1, .inr (.inr rfl)⟩
  two := h.two

/-- …and its announcement. -/
theorem Kept.announce (h : Kept s) (hpc : s.primecalc.pc = .storeIndex) :
    Kept { s with
      cells := { s.cells with index := s.primecalc.n }
      primecalc := { s.primecalc with pc := .readKomanda, n := s.primecalc.n + 1 }
      stored := s.stored ++ [s.primecalc.i] } := by
  have hlt := h.lt (.inr (.inr hpc))
  refine ⟨?_, fun k hk => ?_, nofun, ?_, h.front, ?_, fun v hv => ?_, ?_, ?_, fun v hv => ?_⟩
  · rw [List.length_append, List.length_singleton, h.n]
  · rw [List.length_append, List.length_singleton] at hk
    rcases Nat.lt_succ_iff_lt_or_eq.mp hk with hk | rfl
    · rw [List.getElem?_append_left hk]
      exact h.niz k hk
    · rw [List.getElem?_concat_length, ← h.pending hpc, h.n]
  · rw [List.length_append, List.length_singleton, Nat.add_sub_cancel]
    exact h.n
  · refine List.pairwise_append.mpr ⟨h.sorted, List.pairwise_singleton _ _, fun a ha b hb => ?_⟩
    rw [List.mem_singleton.mp hb]
    exact hlt a ha
  · rcases List.mem_append.mp hv with hv | hv
    · exact h.le v hv
    · exact (List.mem_singleton.mp hv).le
  · rintro (hf | hf | hf) <;> exact nomatch hf
  · exact fun hnil => absurd hnil (List.append_ne_nil_of_right_ne_nil _ (List.cons_ne_nil _ _))
  · cases hs : s.stored with
    | nil =>
      rw [hs] at hv
      exact (Option.some.inj hv).symm.trans (h.first hs).1
    | cons a l =>
      rw [hs] at hv
      exact h.two v (by rw [hs]; exact hv)

/-- A command, and what `primecalc` makes of it. -/
theorem Kept.obey (h : Kept s) (hpc : s.primecalc.pc = .readKomanda ∨ s.primecalc.pc = .paused)
    {k : Calc} (hk : k = s.primecalc.next ∨ k = { s.primecalc with pc := .paused }
      ∨ k = { s.primecalc with pc := .exited }) : Kept { s with primecalc := k } := by
  have hstored : s.stored ≠ [] := fun hnil => by
    rcases (h.first hnil).2 with hf | hf | hf <;> rcases hpc with hpc | hpc <;> rw [hpc] at hf <;>
      exact nomatch hf
  rcases hk with rfl | rfl | rfl
  · exact h.goto rfl (Nat.le_succ _) nofun (fun _ => .inr (Nat.lt_succ_self _)) (absurd · hstored)
  · refine h.goto rfl le_rfl nofun (fun hf => ?_) (absurd · hstored)
    rcases hf with hf | hf | hf <;> exact nomatch hf
  · refine h.goto rfl le_rfl nofun (fun hf => ?_) (absurd · hstored)
    rcases hf with hf | hf | hf <;> exact nomatch hf

/-- What `primecom` does leaves it alone. -/
theorem Kept.com (h : Kept s) (k : ComPc) (komanda : Nat) :
    Kept { s with cells := { s.cells with komanda := komanda }, primecom := k } :=
  ⟨h.n, h.niz, h.pending, h.index, h.front, h.sorted, h.le, h.lt, h.first, h.two⟩

theorem Calc.obey_cases (k : Calc) (komanda : Nat) : k.obey komanda = k.next
    ∨ k.obey komanda = { k with pc := .paused } ∨ k.obey komanda = { k with pc := .exited } := by
  rw [Calc.obey]
  split
  · exact .inr (.inl rfl)
  · split
    · exact .inr (.inr rfl)
    · exact .inl rfl

theorem Calc.poll_cases (k : Calc) (komanda : Nat) (hpc : k.pc = .paused) : k.poll komanda = k.next
    ∨ k.poll komanda = { k with pc := .paused } ∨ k.poll komanda = { k with pc := .exited } := by
  rw [Calc.poll]
  split
  · exact .inl rfl
  · split
    · exact .inr (.inr rfl)
    · refine .inr (.inl ?_)
      rw [← hpc]

theorem Kept.step (h : Kept s) (hstep : Step s e s') : Kept s' := by
  cases hstep with
  | test hpc => exact h.test hpc
  | store hpc => exact h.store hpc
  | fault hpc hn =>
    have hstored : s.stored ≠ [] := by
      rintro hnil
      rw [h.n, hnil] at hn
      exact absurd hn (by decide)
    refine h.goto rfl le_rfl nofun (fun hf => ?_) (absurd · hstored)
    rcases hf with hf | hf | hf <;> exact nomatch hf
  | announce hpc => exact h.announce hpc
  | obey hpc => exact h.obey (.inl hpc) (s.primecalc.obey_cases _)
  | poll hpc => exact h.obey (.inr hpc) (s.primecalc.poll_cases _ hpc)
  | write => exact h.com _ _
  | _ => exact h.com _ s.cells.komanda

/-! ## What `primecom` has read -/

/-- A read of `index` found the position of the last value announced. -/
structure Read.Good (stored : List Nat) (r : Read) : Prop where
  le : r.count ≤ stored.length
  index : r.index = r.count - 1

/-- The value before the last, or the word before the array. -/
def Read.Before (stored : List Nat) (r : Read) (v : Nat) : Prop :=
  if r.count ≤ 1 then v = 50001 else stored[r.count - 2]? = some v

/-- `primecom` knows what it has read. -/
def ComPc.Good (stored : List Nat) : ComPc → Prop
  | .latest number pos value => (∀ r ∈ number, r.Good stored)
    ∧ (∀ r ∈ pos, r.Good stored ∧ ∀ v ∈ value, r.Before stored v) ∧ (pos = none → value = none)
  | .prime n => n < 0x80000000
  | .missing n r => n < 0x80000000 ∧ r.Good stored ∧ r.index < u32 n
  | .found n r => n < 0x80000000 ∧ r.Good stored ∧ u32 n ≤ r.index
  | _ => True

theorem Read.Good.append {r : Read} {l : List Nat} (h : r.Good l) (v : Nat) : r.Good (l ++ [v]) :=
  ⟨h.le.trans (by simp), h.index⟩

theorem Read.Good.before_append {r : Read} {l : List Nat} {w : Nat} (hr : r.Good l)
    (h : r.Before l w) (v : Nat) : r.Before (l ++ [v]) w := by
  have hle := hr.le
  by_cases hc : r.count ≤ 1
  · rw [Read.Before, if_pos hc] at h ⊢
    exact h
  · rw [Read.Before, if_neg hc] at h ⊢
    rw [List.getElem?_append_left (by omega)]
    exact h

/-- More values do not change it. -/
theorem ComPc.Good.append {k : ComPc} {l : List Nat} (h : k.Good l) (v : Nat) : k.Good (l ++ [v]) := by
  cases k with
  | latest number pos value =>
    obtain ⟨hn, hp, hv⟩ := h
    exact ⟨fun r hr => (hn r hr).append v, fun r hr => ⟨(hp r hr).1.append v, fun w hw =>
      (hp r hr).1.before_append ((hp r hr).2 w hw) v⟩, hv⟩
  | missing n r | found n r => exact ⟨h.1, h.2.1.append v, h.2.2⟩
  | _ => exact h

theorem digitsFrom_lt {com : List Nat} {n m : Int} (hn : n < 0x80000000)
    (h : digitsFrom n com = some m) : m < 0x80000000 := by
  induction com generalizing n with
  | nil => cases h
  | cons c com ih =>
    rw [digitsFrom] at h
    split at h
    · exact Option.some.inj h ▸ hn
    · split at h
      · refine ih ?_ h
        have := u32_lt (n * 10 + c - 48)
        rw [i32]
        split <;> omega
      · cases h

theorem digits_of_solve {com : List Nat} {n : Int} (h : solve com = some (.prime n)) :
    digitsFrom 0 (com.drop 6) = some n := by
  rw [solve] at h
  split_ifs at h <;> simp_all

/-- A request for a prime names an `int`. -/
theorem ComPc.good_start (l : List Nat) (com : List Nat) : (ComPc.start (solve com)).Good l := by
  cases hreq : solve com with
  | none => trivial
  | some req =>
    cases req with
    | latest => exact ⟨nofun, nofun, fun _ => rfl⟩
    | prime n => exact digitsFrom_lt (by decide) (digits_of_solve hreq)
    | _ => trivial

/-- A read of `index` now. -/
theorem Kept.look (h : Kept s) : s.look.Good s.stored := ⟨le_rfl, h.index⟩

/-- A read of the array at the position before one that was read. -/
theorem Kept.at_before (h : Kept s) (hfill : s.stored.length ≤ NIZ) {r : Read} (hr : r.Good s.stored) :
    r.Before s.stored (s.cells.at (u32 (r.index - 1))) := by
  have hle := hr.le
  have hindex := hr.index
  rw [NIZ] at hfill
  rw [Read.Before]
  split
  · have hpos : u32 (r.index - 1) = 0xFFFFFFFF := by
      have : r.index = 0 := by omega
      rw [this]
      decide
    rw [hpos, Cells.at, if_pos rfl, h.front]
  · have hpos : u32 (r.index - 1) = r.count - 2 := by
      rw [u32]
      omega
    rw [hpos, Cells.at, if_neg (by omega)]
    exact h.niz _ (by omega)

theorem Kept.com_step (h : Kept s) (hfill : s.stored.length ≤ NIZ) (hcom : s.primecom.Good s.stored)
    (hstep : Step s e s') : s'.primecom.Good s'.stored := by
  cases hstep with
  | announce => exact hcom.append _
  | line => exact ComPc.good_start _ _
  | number hpc =>
    rw [hpc] at hcom
    refine ⟨fun r hr => ?_, hcom.2⟩
    rw [← Option.some.inj hr]
    exact h.look
  | pos hpc =>
    rw [hpc] at hcom
    refine ⟨hcom.1, fun r hr => ⟨?_, nofun⟩, nofun⟩
    rw [← Option.some.inj hr]
    exact h.look
  | value hpc =>
    rw [hpc] at hcom
    refine ⟨hcom.1, fun r hr => ⟨(hcom.2.1 r hr).1, fun v hv => ?_⟩, nofun⟩
    rw [← Option.some.inj hv, Option.some.inj hr]
    exact h.at_before hfill (hcom.2.1 r hr).1
  | compare hpc =>
    rename_i n
    rw [hpc] at hcom
    by_cases hlt : s.cells.index < u32 n
    · exact (congrArg (ComPc.Good _) (if_pos hlt)).mpr ⟨hcom, h.look, hlt⟩
    · exact (congrArg (ComPc.Good _) (if_neg hlt)).mpr ⟨hcom, h.look, Nat.not_lt.mp hlt⟩
  | write hpc =>
    rename_i komanda
    by_cases hend : komanda = 5
    · exact (congrArg (ComPc.Good _) (if_pos hend)).mpr trivial
    · exact (congrArg (ComPc.Good _) (if_neg hend)).mpr trivial
  | latest | missing | found => trivial
  | _ => exact hcom

theorem Step.stored_le (hstep : Step s e s') : s.stored.length ≤ s'.stored.length := by
  cases hstep with
  | announce => simp
  | _ => exact le_rfl

/-- **In every run that fills at most the array.** -/
theorem kept_of_reach (h : Reach Start Step s) :
    Kept s ∧ (s.stored.length ≤ NIZ → s.primecom.Good s.stored) := by
  refine h.keeps (P := fun s => Kept s ∧ (s.stored.length ≤ NIZ → s.primecom.Good s.stored))
    (fun s hs => ⟨.of_start hs, fun _ => ?_⟩) fun s e s' hs hstep => ?_
  · rw [hs.primecom]
    trivial
  · refine ⟨hs.1.step hstep, fun hfill => ?_⟩
    have hfill := hstep.stored_le.trans hfill
    exact hs.1.com_step hfill (hs.2 hfill) hstep

/-! ## What it reports -/

/-- `primecom` is about to answer a request, and `c` values had been announced when it read `index`. -/
inductive Answers : ComPc → Request → Nat → Prop
  | number {r : Read} {pos value} : Answers (.latest (some r) pos value) .latest r.count
  | pos {r : Read} {number value} : Answers (.latest number (some r) value) .latest r.count
  | missing {n : Int} {r : Read} : Answers (.missing n r) (.prime n) r.count
  | found {n : Int} {r : Read} : Answers (.found n r) (.prime n) r.count

/-- **What `primecom` is to report**: the last value with its number, or the one asked for. -/
def Reports (stored : List Nat) (c : Nat) : Request → Out → Prop
  | .latest, o => 1 ≤ c → ∃ v, stored[c - 1]? = some v ∧ o = .latest c v
  | .prime n, o => 1 ≤ n →
    if n ≤ c then ∃ v, stored[n.toNat - 1]? = some v ∧ o = .prime n v else ∃ m, o = .missing n m
  | _, _ => True

/-- A request for another value than the last. -/
def Request.SparesLast (c : Nat) : Request → Prop
  | .latest => c = 0
  | .prime n => 1 ≤ n → n ≠ c
  | _ => True

/-- Values stored one after the other are different. -/
theorem Kept.before_ne (h : Kept s) {r : Read} (hr : r.Good s.stored) (hc : 1 ≤ r.count) {v : Nat}
    (hv : r.Before s.stored v) : s.stored[r.count - 1]? ≠ some v := by
  intro hlast
  have hle := hr.le
  rw [Read.Before] at hv
  split at hv
  · have hcount : r.count - 1 = 0 := by omega
    rw [hcount] at hlast
    have := h.two v hlast
    omega
  · obtain ⟨hlt, hlast⟩ := List.getElem?_eq_some_iff.mp hlast
    obtain ⟨hlt', hv⟩ := List.getElem?_eq_some_iff.mp hv
    have := List.pairwise_iff_getElem.mp h.sorted (r.count - 2) (r.count - 1) hlt' hlt (by omega)
    omega

/-- A request for a value by its number: found if more values have been announced. -/
theorem Kept.reports_prime (h : Kept s) (hcom : s.primecom.Good s.stored)
    (hprint : Step s (.print o) s') {n : Int}
    (hreq : Answers s.primecom (.prime n) c) (hn : 1 ≤ n) :
    (n < c ∧ ∃ v, s.stored[n.toNat - 1]? = some v ∧ o = .prime n v)
      ∨ c ≤ n ∧ ∃ m, o = .missing n m := by
  cases hpc : s.primecom with
  | missing m r =>
    rw [hpc] at hreq hcom
    cases hreq
    obtain ⟨hlt, hr, hmiss⟩ := hcom
    have hle := hr.le
    have hindex := hr.index
    have hu : u32 n = n.toNat := by
      rw [u32]
      omega
    cases hprint <;> rename_i hpc' <;> rw [hpc] at hpc' <;> cases hpc'
    exact .inr ⟨by omega, _, rfl⟩
  | found m r =>
    rw [hpc] at hreq hcom
    cases hreq
    obtain ⟨hlt, hr, hfound⟩ := hcom
    have hle := hr.le
    have hindex := hr.index
    have hu : u32 n = n.toNat := by
      rw [u32]
      omega
    have hpos : u32 (u32 n - 1) = n.toNat - 1 := by
      rw [hu, u32]
      omega
    cases hprint <;> rename_i hpc' <;> rw [hpc] at hpc' <;> cases hpc'
    refine .inl ⟨by omega, _, h.niz _ (by omega), ?_⟩
    rw [hpos, Cells.at, if_neg (by omega)]
  | _ =>
    rw [hpc] at hreq
    cases hreq

/-- A request for the latest value: the number is one too small, or the value is the one before. -/
theorem Kept.reports_latest (h : Kept s) (hcom : s.primecom.Good s.stored)
    (hprint : Step s (.print o) s') (hreq : Answers s.primecom .latest c) (hc : 1 ≤ c) {v : Nat}
    (hv : s.stored[c - 1]? = some v) : o ≠ .latest c v := by
  cases hpc : s.primecom with
  | latest number pos value =>
    rw [hpc] at hreq hcom
    cases hprint <;> rename_i hpc' <;> rw [hpc] at hpc' <;> cases hpc'
    obtain ⟨hnumber, hpos, -⟩ := hcom
    intro ho
    obtain ⟨hnum, hval⟩ := Out.latest.inj ho
    cases hreq with
    | number =>
      have := (hnumber _ rfl).index
      omega
    | pos =>
      obtain ⟨hr, hbefore⟩ := hpos _ rfl
      exact h.before_ne hr hc (hbefore _ rfl) (hval ▸ hv)
  | _ =>
    rw [hpc] at hreq
    exact nomatch hreq

/-- **`primecom` reports every value but the last one stored**: `latest` is never right, and
`prime n` is right unless `n` values are there. -/
theorem primecom_reports_iff (h : Reach Start Step s) (hfill : s.stored.length ≤ NIZ)
    (hprint : Step s (.print o) s') (hreq : Answers s.primecom req c) :
    Reports s.stored c req o ↔ req.SparesLast c := by
  obtain ⟨hkept, hcom⟩ := kept_of_reach h
  have hcom := hcom hfill
  cases req with
  | latest =>
    constructor
    · intro hrep
      by_contra hc
      obtain ⟨v, hv, ho⟩ := hrep (Nat.pos_of_ne_zero hc)
      exact hkept.reports_latest hcom hprint hreq (Nat.pos_of_ne_zero hc) hv ho
    · intro hc hpos
      exact absurd hc (Nat.ne_of_gt hpos)
  | prime n =>
    refine forall_congr' fun hn => ?_
    rcases hkept.reports_prime hcom hprint hreq hn with ⟨hlt, v, hv, rfl⟩ | ⟨hle, m, rfl⟩
    · rw [if_pos (Int.le_of_lt hlt)]
      exact ⟨fun _ => Int.ne_of_lt hlt, fun _ => ⟨v, hv, rfl⟩⟩
    · by_cases heq : n = c
      · rw [if_pos (Int.le_of_eq heq)]
        exact ⟨(fun ⟨_, _, ho⟩ => nomatch ho), (absurd heq ·)⟩
      · rw [if_neg (fun hle' => heq (Int.le_antisymm hle' hle))]
        exact ⟨fun _ => heq, fun _ => ⟨m, rfl⟩⟩
  | _ => exact Iff.rfl

/-! ### The first value -/

/-- The state `primestart` leaves behind. -/
def started : State := ⟨⟨fun _ => 0, 50001, 0, 0⟩, ⟨.test, 2, 0⟩, .ready, []⟩

/-- `primecalc` has found its first value. -/
def found : State :=
  ⟨⟨update (fun _ => 0) 0 2, 50001, 0, 0⟩, ⟨.readKomanda, 2, 1⟩, .ready, [2]⟩

theorem reach_found : Reach Start Step found := by
  have h₀ : Reach Start Step started := .init ⟨fun _ => rfl, rfl, rfl, rfl, rfl, rfl, rfl⟩
  exact ((h₀.step (.test rfl)).step (.store rfl)).step (.announce rfl)

/-- …and is asked for it. -/
def asked : State := { found with primecom := .latest (some ⟨0, 1⟩) (some ⟨0, 1⟩) (some 50001) }

theorem reach_asked : Reach Start Step asked :=
  (((reach_found.step (@Step.line found (cstr "latest\n") rfl)).step (.number rfl)).step
    (.pos rfl)).step (.value rfl)

theorem asked_prints : Step asked (.print (.latest 0 50001)) found :=
  Step.latest (s := asked) (r := ⟨0, 1⟩) (v := 50001) rfl

theorem primecom_reports_iff_asked :
    (Reports [2] 1 .latest (.latest 0 50001) ↔ Request.SparesLast 1 .latest) ∧ asked.stored = [2] :=
  ⟨primecom_reports_iff reach_asked (by decide) asked_prints .number, rfl⟩

/-- **With one value stored, `latest` prints number zero and the word before the array.** -/
theorem primecom_latest_wrong : Reach Start Step asked ∧ Step asked (.print (.latest 0 50001)) found
    ∧ asked.stored = [2] ∧ Answers asked.primecom .latest 1
    ∧ ¬ Reports asked.stored 1 .latest (.latest 0 50001) := by
  refine ⟨reach_asked, asked_prints, rfl, .number, fun hrep => ?_⟩
  obtain ⟨v, -, ho⟩ := hrep le_rfl
  exact absurd (Out.latest.inj ho).1 (by decide)

/-! ## Commands -/

/-- A step of `primecalc`. -/
def Event.OfCalc : Event → Bool
  | .test | .store | .announce | .obey | .poll | .fault => true
  | _ => false

/-- The steps of `primecalc` until it has read a command, when it is told to end. -/
def CalcPc.left : CalcPc → Nat
  | .test => 4
  | .storeNiz => 3
  | .storeIndex => 2
  | .readKomanda | .paused => 1
  | .exited => 0

/-- The stores to the array among them. -/
def CalcPc.stores : CalcPc → Nat
  | .test | .storeNiz => 1
  | _ => 0

/-- …and to `index`. -/
def CalcPc.announces : CalcPc → Nat
  | .test | .storeNiz | .storeIndex => 1
  | _ => 0

/-- `primecom` writes commands, and none after the last. -/
theorem komanda_of_reach (h : Reach Start Step s) {k : Nat} (hk : s.primecom = .write k) :
    k = 3 ∨ k = 4 ∨ k = 5 := by
  suffices hall : ∀ k, s.primecom = .write k → k = 3 ∨ k = 4 ∨ k = 5 from hall k hk
  refine h.keeps (P := fun s => ∀ k, s.primecom = .write k → k = 3 ∨ k = 4 ∨ k = 5)
    (fun s hs k hk => ?_) fun s e s' hs hstep k hk => ?_
  · rw [hs.primecom] at hk
    exact nomatch hk
  · cases hstep with
    | test | store | fault | announce | obey | poll => exact hs k hk
    | line =>
      rename_i com _
      change ComPc.start (solve com) = .write k at hk
      cases hreq : solve com with
      | none =>
        rw [hreq] at hk
        exact nomatch hk
      | some req =>
        rw [hreq] at hk
        cases req <;> cases hk <;> decide
    | compare | write =>
      change (if _ then _ else _) = ComPc.write k at hk
      split at hk <;> exact nomatch hk
    | _ => exact nomatch hk

/-- While the command is to pause or to end, `primecalc` goes on to the line where it reads it. -/
theorem Step.held (hstep : Step s e s') (hk : s.cells.komanda = 4 ∨ s.cells.komanda = 5) :
    s'.primecalc.pc.stores + (if e = .store then 1 else 0) ≤ s.primecalc.pc.stores
      ∧ s'.primecalc.pc.announces + (if e = .announce then 1 else 0) ≤ s.primecalc.pc.announces := by
  cases hstep with
  | test hpc =>
    rw [hpc, Calc.tested]
    split <;> simp [CalcPc.stores, CalcPc.announces]
  | store hpc | announce hpc => simp [hpc, CalcPc.stores, CalcPc.announces]
  | fault hpc => simp [CalcPc.stores, CalcPc.announces]
  | obey hpc => rcases hk with hk | hk <;> simp [hk, Calc.obey, CalcPc.stores, CalcPc.announces]
  | poll hpc =>
    rcases hk with hk | hk <;> simp [hk, hpc, Calc.poll, CalcPc.stores, CalcPc.announces]
  | _ => exact ⟨le_rfl, le_rfl⟩

/-- While it is to end, `primecalc` comes nearer to it with every step. -/
theorem Step.ending (hstep : Step s e s') (hk : s.cells.komanda = 5) :
    s'.primecalc.pc.left + (if e.OfCalc then 1 else 0) ≤ s.primecalc.pc.left := by
  cases hstep with
  | test hpc =>
    rw [hpc, Calc.tested]
    split <;> simp [CalcPc.left, Event.OfCalc]
  | store hpc | fault hpc | announce hpc => simp [hpc, CalcPc.left, Event.OfCalc]
  | obey hpc => simp [hk, hpc, Calc.obey, CalcPc.left, Event.OfCalc]
  | poll hpc => simp [hk, hpc, Calc.poll, CalcPc.left, Event.OfCalc]
  | _ => exact le_rfl

/-- The command stays until `primecom` writes another. -/
theorem Step.komanda (hstep : Step s e s') :
    s'.cells.komanda = s.cells.komanda ∨ e = .write s'.cells.komanda := by
  cases hstep with
  | write => exact .inr rfl
  | _ => exact .inl rfl

/-- `primecalc` can go on until it exits. -/
theorem exists_step_of_not_exited (s : State) (h : s.primecalc.pc ≠ .exited) :
    ∃ e s', e.OfCalc = true ∧ Step s e s' := by
  cases hpc : s.primecalc.pc with
  | test => exact ⟨_, _, rfl, .test hpc⟩
  | storeNiz => exact ⟨_, _, rfl, .store hpc⟩
  | storeIndex => exact ⟨_, _, rfl, .announce hpc⟩
  | readKomanda => exact ⟨_, _, rfl, .obey hpc⟩
  | paused => exact ⟨_, _, rfl, .poll hpc⟩
  | exited => exact absurd hpc h

variable {s₀ : State} {es : List Event}

/-- **Under a command to pause or to end**, what `primecalc` may still do it has done less. -/
theorem held_of_trace (hr : Trace Step s es s') (hk : s.cells.komanda = 4 ∨ s.cells.komanda = 5)
    (hes : ∀ k, .write k ∈ es → k = s.cells.komanda) : s'.cells.komanda = s.cells.komanda
      ∧ s'.primecalc.pc.stores + es.count .store ≤ s.primecalc.pc.stores
      ∧ s'.primecalc.pc.announces + es.count .announce ≤ s.primecalc.pc.announces := by
  induction hr with
  | nil => exact ⟨rfl, le_rfl, le_rfl⟩
  | @snoc t u es e _ hstep ih =>
    obtain ⟨hkt, hstores, hannounces⟩ := ih fun k hk => hes k (List.mem_append_left _ hk)
    obtain ⟨hs, ha⟩ := hstep.held (hkt ▸ hk)
    refine ⟨?_, ?_, ?_⟩
    · rcases hstep.komanda with hku | rfl
      · exact hku.trans hkt
      · exact hes _ (List.mem_append_right _ (List.mem_singleton_self _))
    · rw [List.count_append, List.count_singleton]
      simp only [beq_iff_eq]
      omega
    · rw [List.count_append, List.count_singleton]
      simp only [beq_iff_eq]
      omega

theorem ending_of_trace (hr : Trace Step s es s') (hk : s.cells.komanda = 5)
    (hes : ∀ k, .write k ∈ es → k = s.cells.komanda) :
    s'.primecalc.pc.left + es.countP Event.OfCalc ≤ s.primecalc.pc.left := by
  induction hr with
  | nil => exact le_rfl
  | @snoc t u es e hr hstep ih =>
    have hes' : ∀ k, .write k ∈ es → k = s.cells.komanda := fun k hk =>
      hes k (List.mem_append_left _ hk)
    have ht := (held_of_trace hr (.inr hk) hes').1.trans hk
    have := hstep.ending ht
    have := ih hes'
    rw [List.countP_append, List.countP_singleton]
    omega

/-- After the last command `primecom` is gone. -/
theorem Step.exited (hstep : Step s e s') (hcom : s.primecom = .exited) :
    s'.primecom = .exited ∧ ∀ k, e ≠ .write k := by
  cases hstep with
  | test | store | fault | announce | obey | poll => exact ⟨hcom, nofun⟩
  | _ hpc => exact nomatch hcom.symm.trans hpc

theorem exited_of_trace (hr : Trace Step s es s') (hcom : s.primecom = .exited) :
    s'.primecom = .exited ∧ ∀ k, .write k ∉ es := by
  induction hr with
  | nil => exact ⟨hcom, fun _ => List.not_mem_nil⟩
  | snoc _ hstep ih =>
    obtain ⟨hlast, hne⟩ := hstep.exited ih.1
    refine ⟨hlast, fun k hk => ?_⟩
    rcases List.mem_append.mp hk with hk | hk
    · exact ih.2 k hk
    · exact hne k (List.mem_singleton.mp hk).symm

/-- What a write leaves. -/
theorem Step.of_write {k : Nat} (hstep : Step s (.write k) s') : s.primecom = .write k
    ∧ s'.cells.komanda = k ∧ s'.primecom = if k = 5 then .exited else .ready := by
  cases hstep with
  | write hpc => exact ⟨hpc, rfl, rfl⟩

theorem CalcPc.stores_le (pc : CalcPc) : pc.stores ≤ 1 ∧ pc.announces ≤ 1 ∧ pc.left ≤ 4 := by
  cases pc <;> decide

theorem CalcPc.exited_of_left {pc : CalcPc} (h : pc.left = 0) : pc = .exited := by
  cases pc <;> first | rfl | exact nomatch h

theorem komanda_of_trace (h : Reach Start Step s) (hr : Trace Step s es s') {k : Nat}
    (hk : .write k ∈ es) : k = 3 ∨ k = 4 ∨ k = 5 := by
  induction hr with
  | nil => exact absurd hk List.not_mem_nil
  | snoc hr hstep ih =>
    rcases List.mem_append.mp hk with hk | hk
    · exact ih hk
    · rw [← List.mem_singleton.mp hk] at hstep
      exact komanda_of_reach (h.trace hr) hstep.of_write.1

/-- Until another command than to pause is written, at most one value is stored. -/
theorem pause_bound (h : Reach Start Step s₀) (hr : Trace Step s es s') (hw : Step s₀ (.write 4) s)
    (hno : .write 3 ∉ es ∧ .write 5 ∉ es) : es.count .store ≤ 1 ∧ es.count .announce ≤ 1 := by
  have hk := hw.of_write.2.1
  have hwrites : ∀ k, .write k ∈ es → k = s.cells.komanda := fun k hmem => by
    rcases komanda_of_trace (h.step hw) hr hmem with rfl | rfl | rfl
    · exact absurd hmem hno.1
    · exact hk.symm
    · exact absurd hmem hno.2
  obtain ⟨-, hstores, hannounces⟩ := held_of_trace hr (.inl hk) hwrites
  have := s.primecalc.pc.stores_le
  exact ⟨by omega, by omega⟩

/-- After the command to end, at most one value is stored, and `primecalc` exits within four steps. -/
theorem end_bound (hr : Trace Step s es s') (hw : Step s₀ (.write 5) s) :
    es.count .store ≤ 1 ∧ es.count .announce ≤ 1 ∧ es.countP Event.OfCalc ≤ 4
      ∧ (4 ≤ es.countP Event.OfCalc → s'.primecalc.pc = .exited) := by
  obtain ⟨-, hk, hcom⟩ := hw.of_write
  have hwrites : ∀ k, .write k ∈ es → k = s.cells.komanda := fun k hk =>
    absurd hk ((exited_of_trace hr hcom).2 k)
  obtain ⟨-, hstores, hannounces⟩ := held_of_trace hr (.inr hk) hwrites
  have hleft := ending_of_trace hr hk hwrites
  have := s.primecalc.pc.stores_le
  exact ⟨by omega, by omega, by omega, fun h4 => CalcPc.exited_of_left (by omega)⟩

/-- **Pausing and ending take effect within one number.**  `primecalc` stores and announces at most one
value between a command to pause and the next to resume or end, and at most one after a command to end;
then it exits, within four steps of its own, and until then it can take them. -/
theorem primecalc_obeys (h : Reach Start Step s₀) (hr : Trace Step s es s') :
    (Step s₀ (.write 4) s → .write 3 ∉ es ∧ .write 5 ∉ es →
      es.count .store ≤ 1 ∧ es.count .announce ≤ 1)
    ∧ (Step s₀ (.write 5) s → es.count .store ≤ 1 ∧ es.count .announce ≤ 1
      ∧ es.countP Event.OfCalc ≤ 4 ∧ (4 ≤ es.countP Event.OfCalc → s'.primecalc.pc = .exited)
      ∧ (s'.primecalc.pc ≠ .exited → ∃ e s'', e.OfCalc = true ∧ Step s' e s'')) := by
  refine ⟨pause_bound h hr, fun hw => ?_⟩
  obtain ⟨hstore, hannounce, hle, hexit⟩ := end_bound hr hw
  exact ⟨hstore, hannounce, hle, hexit, exists_step_of_not_exited s'⟩

/-- `primecalc` is at its second number, and `primecom` about to write a pause. -/
def pausing : State := { found with primecalc := ⟨.test, 3, 1⟩, primecom := .write 4 }

/-- …and has written it. -/
def pausedAt : State :=
  { found with
    cells := { found.cells with komanda := 4 }
    primecalc := ⟨.test, 3, 1⟩ }

/-- That number is still stored. -/
theorem primecalc_obeys_three : ∃ s', Reach Start Step pausing ∧ Step pausing (.write 4) pausedAt
    ∧ Trace Step pausedAt [.test, .store, .announce, .obey, .poll] s' ∧ s'.stored = [2, 3]
    ∧ [Event.test, .store, .announce, .obey, .poll].count .store ≤ 1 := by
  have h₀ : Reach Start Step pausing :=
    (reach_found.step (.obey rfl)).step (@Step.line _ (cstr "pause\n") rfl)
  have hw : Step pausing (.write 4) pausedAt := @Step.write pausing 4 rfl
  have hr := (((((Trace.nil pausedAt).snoc (Step.test rfl)).snoc (Step.store rfl)).snoc
    (Step.announce rfl)).snoc (Step.obey rfl)).snoc (Step.poll rfl)
  exact ⟨_, h₀, hw, hr, rfl, ((primecalc_obeys h₀ hr).1 hw (by decide)).1⟩

end Xv6.Primes
