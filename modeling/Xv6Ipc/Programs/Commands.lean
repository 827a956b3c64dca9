import Xv6Ipc.Programs.Primes

/-!
# Programs/Commands — the lines `primecom` understands

`solve` reads the line that `gets` has left in a buffer of twenty bytes:

    latest↵      1        prime ⟨digits⟩↵   2, and n
    resume↵      3        pause↵            4
    end↵         5        anything else     0

Here the line is bytes in memory, with a zero at its end, and a read past that zero is a fault.  No line
leads to one.  Two kinds of lines are not understood as above: `prime ↵`, without a digit, is a request for
number zero, and digits of a number that is no `int` are a request for another number.
-/

namespace Xv6.Primes

variable {line rest str w ds : List Nat} {n : Int} {r m : Int}

/-! ## The code -/

/-- `strcmp`, of strings with their zeroes. -/
def strcmpMem : List Nat → List Nat → Option Int
  | p :: ps, q :: qs => if p ≠ 0 ∧ p = q then strcmpMem ps qs else some ((p : Int) - q)
  | _, _ => none

/-- The loop over `str`: what follows it in the line, or nothing at the first difference. -/
def skipWord : List Nat → List Nat → Option (Option (List Nat))
  | [], com => some (some com)
  | _ :: _, [] => none
  | c :: str, b :: com => if c ≠ b then some none else skipWord str com

/-- The loop over the digits: what `solve` returns, and `n`. -/
def digitLoop : Int → List Nat → Option (Int × Int)
  | _, [] => none
  | n, c :: com =>
    if c = 10 then some (2, n)
    else if ¬ (48 ≤ c ∧ c ≤ 57) then some (0, n)
    else digitLoop (i32 (u32 (n * 10 + c - 48))) com

/-- What follows the loop over `str`. -/
def solveRest : Option (List Nat) → Option (Int × Int)
  | none => some (0, 0)
  | some rest => digitLoop 0 rest

/-- `solve`: what it returns, and `n`. -/
def solveMem (n : Int) (com : List Nat) : Option (Int × Int) := do
  let latest ← strcmpMem (cstr "latest\n" ++ [0]) com
  if latest = 0 then return (1, n)
  else do
    let resume ← strcmpMem (cstr "resume\n" ++ [0]) com
    if resume = 0 then return (3, n)
    else do
      let pause ← strcmpMem (cstr "pause\n" ++ [0]) com
      if pause = 0 then return (4, n)
      else do
        let last ← strcmpMem (cstr "end\n" ++ [0]) com
        if last = 0 then return (5, n)
        else do
          let rest ← skipWord (cstr "prime ") com
          solveRest rest

/-- The loop of `gets`, which ends with the input, a line or the buffer. -/
def getsLoop : Nat → List Nat → List Nat
  | 0, _ => []
  | _ + 1, [] => []
  | k + 1, c :: input => if c = 10 ∨ c = 13 then [c] else c :: getsLoop k input

/-- The buffer when `gets` has returned. -/
def buffer (input : List Nat) : List Nat :=
  getsLoop 19 input ++ List.replicate (20 - (getsLoop 19 input).length) 0

/-- The string in it. -/
def typed (input : List Nat) : List Nat := (getsLoop 19 input).takeWhile (· ≠ 0)

/-! ## Lines -/

theorem length_getsLoop_le (k : Nat) (input : List Nat) : (getsLoop k input).length ≤ k := by
  induction k generalizing input with
  | zero => exact le_rfl
  | succ k ih =>
    cases input with
    | nil => exact Nat.zero_le _
    | cons c input =>
      rw [getsLoop]
      split
      · exact Nat.succ_le_succ (Nat.zero_le _)
      · exact Nat.succ_le_succ (ih input)

/-- A newline is the last byte that `gets` reads. -/
theorem nil_of_getsLoop {a b input : List Nat} {k : Nat} (h : getsLoop k input = a ++ 10 :: b) :
    b = [] := by
  induction k generalizing a input with
  | zero => exact absurd h (List.append_ne_nil_of_right_ne_nil _ (List.cons_ne_nil _ _)).symm
  | succ k ih =>
    cases input with
    | nil => exact absurd h (List.append_ne_nil_of_right_ne_nil _ (List.cons_ne_nil _ _)).symm
    | cons c input =>
      rw [getsLoop] at h
      split at h
      · cases a with
        | nil => exact (List.cons.inj h).2.symm
        | cons a l => exact absurd (List.cons.inj h).2.symm (by simp)
      · cases a with
        | nil =>
          rename_i hc
          exact absurd (.inl (List.cons.inj h).1) hc
        | cons a l => exact ih (List.cons.inj h).2

theorem zero_notMem_typed (input : List Nat) : 0 ∉ typed input := fun h => by
  have hall : (typed input).all (· ≠ 0) = true := List.all_takeWhile
  exact absurd rfl (of_decide_eq_true (List.all_eq_true.mp hall 0 h))

theorem nil_of_typed {a b input : List Nat} (h : typed input = a ++ 10 :: b) : b = [] := by
  obtain ⟨t, ht⟩ := List.takeWhile_prefix (p := (· ≠ 0)) (l := getsLoop 19 input)
  have hget : getsLoop 19 input = a ++ 10 :: (b ++ t) := by
    rw [← ht]
    change typed input ++ t = _
    rw [h, List.append_assoc, List.cons_append]
  exact (List.append_eq_nil_iff.mp (nil_of_getsLoop hget)).1

/-- A string ends at its first zero. -/
theorem exists_takeWhile_append (l t : List Nat) :
    ∃ junk, l ++ 0 :: t = l.takeWhile (· ≠ 0) ++ 0 :: junk := by
  induction l with
  | nil => exact ⟨t, rfl⟩
  | cons c l ih =>
    by_cases hc : c = 0
    · refine ⟨l ++ 0 :: t, ?_⟩
      rw [List.takeWhile_cons_of_neg (by simpa using hc), hc]
      rfl
    · obtain ⟨junk, hjunk⟩ := ih
      refine ⟨junk, ?_⟩
      rw [List.takeWhile_cons_of_pos (by simpa using hc), List.cons_append, hjunk, List.cons_append]

/-- The string and its zero are in the buffer. -/
theorem buffer_eq (input : List Nat) : ∃ junk, buffer input = (typed input ++ [0]) ++ junk := by
  have hlen := length_getsLoop_le 19 input
  obtain ⟨k, hk⟩ : ∃ k, 20 - (getsLoop 19 input).length = k + 1 :=
    ⟨19 - (getsLoop 19 input).length, by omega⟩
  obtain ⟨junk, hjunk⟩ := exists_takeWhile_append (getsLoop 19 input) (List.replicate k 0)
  refine ⟨junk, ?_⟩
  rw [buffer, hk, List.replicate_succ, hjunk, List.append_assoc, typed, List.singleton_append]

/-! ## What is understood -/

/-- The words, and what `solve` returns for them. -/
def words : List (List Nat × Int) :=
  [(cstr "latest\n", 1), (cstr "resume\n", 3), (cstr "pause\n", 4), (cstr "end\n", 5)]

/-- A request for a prime by its number. -/
structure Numeral (ds line : List Nat) : Prop where
  ne : ds ≠ []
  lt : ∀ d ∈ ds, d < 10
  line : line = cstr "prime " ++ (ds.map (48 + ·) ++ [10])

/-- **What `solve` is to make of a line.** -/
structure Understood (line : List Nat) (r m : Int) : Prop where
  word : ∀ w ∈ words, r = w.2 ↔ line = w.1
  prime : r = 2 ↔ ∃ ds, Numeral ds line
  number : ∀ ds, Numeral ds line → m = decimal ds 0
  other : (∀ w ∈ words, line ≠ w.1) → (¬ ∃ ds, Numeral ds line) → r = 0

/-! ## The loops -/

theorem strcmpMem_of_ne (hw : 0 ∉ w) (hl : 0 ∉ line) (hne : line ≠ w) :
    ∃ v, strcmpMem (w ++ [0]) (line ++ [0]) = some v ∧ v ≠ 0 := by
  induction w generalizing line with
  | nil =>
    cases line with
    | nil => exact absurd rfl hne
    | cons c line =>
      refine ⟨0 - c, ?_, ?_⟩
      · exact if_neg fun h => h.1 rfl
      · have hc : c ≠ 0 := fun h => hl (h ▸ List.mem_cons_self)
        omega
  | cons a w ih =>
    obtain ⟨ha, hw⟩ := not_or.mp (List.mem_cons.not.mp hw)
    cases line with
    | nil =>
      refine ⟨a - 0, if_neg fun h => ha h.2.symm, ?_⟩
      omega
    | cons c line =>
      obtain ⟨hc, hl⟩ := not_or.mp (List.mem_cons.not.mp hl)
      by_cases hac : a = c
      · obtain ⟨v, hv, hv0⟩ := ih hw hl fun h => hne (by rw [h, hac])
        exact ⟨v, (if_pos ⟨Ne.symm ha, hac⟩).trans hv, hv0⟩
      · refine ⟨a - c, if_neg fun h => hac h.2, ?_⟩
        omega

theorem skipWord_cases (line : List Nat) (hstr : 0 ∉ str) :
    (∃ rest, line = str ++ rest ∧ skipWord str (line ++ [0]) = some (some (rest ++ [0])))
      ∨ (¬ ∃ rest, line = str ++ rest) ∧ skipWord str (line ++ [0]) = some none := by
  induction str generalizing line with
  | nil => exact .inl ⟨line, rfl, rfl⟩
  | cons c str ih =>
    obtain ⟨hc, hstr⟩ := not_or.mp (List.mem_cons.not.mp hstr)
    cases line with
    | nil => exact .inr ⟨(fun ⟨_, h⟩ => nomatch h), if_pos (Ne.symm hc)⟩
    | cons b line =>
      by_cases hcb : c = b
      · rcases ih line hstr with ⟨rest, rfl, hrest⟩ | ⟨hno, hnone⟩
        · exact .inl ⟨rest, by rw [hcb]; rfl, (if_neg (not_not.mpr hcb)).trans hrest⟩
        · exact .inr ⟨fun ⟨rest, h⟩ => hno ⟨rest, (List.cons.inj h).2⟩,
            (if_neg (not_not.mpr hcb)).trans hnone⟩
      · exact .inr ⟨fun ⟨_, h⟩ => hcb (List.cons.inj h).1.symm, if_pos hcb⟩

theorem zero_notMem_prime : 0 ∉ cstr "prime " := by decide

/-- `n` after some digits. -/
def wrapped (ds : List Nat) (n : Int) : Int := ds.foldl (fun (n : Int) (d : Nat) => i32 (u32 (n * 10 + d))) n

/-- Digits up to a newline. -/
structure Number (ds rest tail : List Nat) : Prop where
  lt : ∀ d ∈ ds, d < 10
  rest : rest = ds.map (48 + ·) ++ 10 :: tail

theorem digitLoop_cases (rest : List Nat) (n : Int) :
    (∃ ds tail, Number ds rest tail ∧ digitLoop n (rest ++ [0]) = some (2, wrapped ds n))
      ∨ (¬ ∃ ds tail, Number ds rest tail) ∧ ∃ m, digitLoop n (rest ++ [0]) = some (0, m) := by
  induction rest generalizing n with
  | nil =>
    refine .inr ⟨?_, n, rfl⟩
    rintro ⟨ds, tail, h⟩
    exact absurd h.rest.symm (List.append_ne_nil_of_right_ne_nil _ (List.cons_ne_nil _ _))
  | cons c rest ih =>
    rw [List.cons_append, digitLoop]
    by_cases hnl : c = 10
    · exact .inl ⟨[], rest, ⟨nofun, by rw [hnl]; rfl⟩, if_pos hnl⟩
    rw [if_neg hnl]
    by_cases hdigit : 48 ≤ c ∧ c ≤ 57
    · rw [if_neg (not_not.mpr hdigit)]
      have hnext : n * 10 + c - 48 = n * 10 + (c - 48 : Nat) := by omega
      rw [hnext]
      rcases ih (i32 (u32 (n * 10 + (c - 48 : Nat)))) with ⟨ds, tail, h, hloop⟩ | ⟨hno, hloop⟩
      · refine .inl ⟨(c - 48) :: ds, tail, ⟨?_, ?_⟩, hloop⟩
        · exact List.forall_mem_cons.mpr ⟨by omega, h.lt⟩
        · rw [List.map_cons, List.cons_append, ← h.rest, Nat.add_sub_cancel' hdigit.1]
      · refine .inr ⟨?_, hloop⟩
        rintro ⟨ds, tail, h⟩
        cases ds with
        | nil => exact hnl (List.cons.inj h.rest).1
        | cons d ds => exact hno ⟨ds, tail, fun d hd => h.lt d (List.mem_cons_of_mem _ hd),
            (List.cons.inj h.rest).2⟩
    · rw [if_pos hdigit]
      refine .inr ⟨?_, n, rfl⟩
      rintro ⟨ds, tail, h⟩
      cases ds with
      | nil => exact hnl (List.cons.inj h.rest).1
      | cons d ds =>
        have hc : c = 48 + d := (List.cons.inj h.rest).1
        have hd := h.lt d List.mem_cons_self
        omega

/-- **Arithmetic of `int`s loses nothing but multiples of `2 ^ 32`.** -/
theorem wrapped_eq (ds : List Nat) (k : Nat) :
    wrapped ds (i32 (u32 k)) = i32 (u32 (decimal ds k : Nat)) := by
  induction ds generalizing k with
  | nil => rfl
  | cons d ds ih =>
    have hstep : u32 (i32 (u32 k) * 10 + d) = u32 ((k * 10 + d : Nat) : Int) := by
      rw [i32]
      split <;> simp only [u32] at * <;> omega
    rw [wrapped, List.foldl_cons, hstep]
    exact ih (k * 10 + d)

theorem i32_u32_eq_iff (k : Nat) : i32 (u32 k) = k ↔ k < 0x80000000 := by
  rw [i32]
  split <;> simp only [u32] at * <;> omega

/-! ## Reads past the zero

A string is read from its first byte on, so that bytes after the last one read do not matter.
-/

theorem strcmpMem_append {p q : List Nat} {v : Int} (h : strcmpMem p q = some v) (t : List Nat) :
    strcmpMem p (q ++ t) = some v := by
  induction p generalizing q with
  | nil => exact nomatch h
  | cons a p ih =>
    cases q with
    | nil => exact nomatch h
    | cons b q =>
      rw [strcmpMem] at h
      rw [List.cons_append, strcmpMem]
      split at h
      · rename_i hab
        rw [if_pos hab, ih h]
      · rename_i hab
        rw [if_neg hab, h]

theorem skipWord_append {com : List Nat} {o : Option (List Nat)} (h : skipWord str com = some o)
    (t : List Nat) : skipWord str (com ++ t) = some (o.map (· ++ t)) := by
  induction str generalizing com with
  | nil =>
    rw [skipWord, Option.some.injEq] at h
    rw [skipWord, ← h]
    rfl
  | cons a str ih =>
    cases com with
    | nil => exact nomatch h
    | cons b com =>
      rw [skipWord] at h
      rw [List.cons_append, skipWord]
      split at h
      · rename_i hab
        rw [if_pos hab, ← Option.some.inj h]
        rfl
      · rename_i hab
        rw [if_neg hab, ih h]

theorem digitLoop_append {x : Int × Int} (h : digitLoop n rest = some x) (t : List Nat) :
    digitLoop n (rest ++ t) = some x := by
  induction rest generalizing n with
  | nil => exact nomatch h
  | cons c rest ih =>
    rw [digitLoop] at h
    rw [List.cons_append, digitLoop]
    split at h
    · rename_i hc
      rw [if_pos hc, h]
    · rename_i hc
      rw [if_neg hc]
      split at h
      · rename_i hd
        rw [if_pos hd, h]
      · rename_i hd
        rw [if_neg hd, ih h]

/-- **`solve` is decided by the bytes that it reads.** -/
theorem solveMem_append {com : List Nat} {x : Int × Int} (h : solveMem n com = some x) (t : List Nat) :
    solveMem n (com ++ t) = some x := by
  -- a comparison that has a result has it in the longer buffer too
  have hword : ∀ {p : List Nat} {f g : Int → Option (Int × Int)}, (strcmpMem p com).bind f = some x →
      (∀ v, f v = some x → g v = some x) → (strcmpMem p (com ++ t)).bind g = some x := fun hb hfg => by
    obtain ⟨v, hv, hf⟩ := Option.bind_eq_some_iff.mp hb
    rw [strcmpMem_append hv t]
    exact hfg v hf
  have hif : ∀ {v r : Int} {a b : Option (Int × Int)}, (if v = 0 then some (r, n) else a) = some x →
      (a = some x → b = some x) → (if v = 0 then some (r, n) else b) = some x := fun ha hab => by
    split at ha
    · rename_i hv
      rw [if_pos hv, ha]
    · rename_i hv
      rw [if_neg hv]
      exact hab ha
  refine hword h fun latest h => hif h fun h => ?_
  refine hword h fun resume h => hif h fun h => ?_
  refine hword h fun pause h => hif h fun h => ?_
  refine hword h fun last h => hif h fun h => ?_
  obtain ⟨o, ho, hrest⟩ := Option.bind_eq_some_iff.mp h
  refine Option.bind_eq_some_iff.mpr ⟨_, skipWord_append ho t, ?_⟩
  cases o with
  | none => exact hrest
  | some rest => exact digitLoop_append hrest t

/-! ## Every line -/

theorem solveMem_word (hw : w ∈ words.map Prod.fst) : ∃ r, (w, r) ∈ words ∧ ∀ n,
    solveMem n (w ++ [0]) = some (r, n) := by
  obtain ⟨⟨w, r⟩, hmem, rfl⟩ := List.mem_map.mp hw
  refine ⟨r, hmem, fun n => ?_⟩
  simp only [words, List.mem_cons, Prod.mk.injEq, List.not_mem_nil, or_false] at hmem
  rcases hmem with ⟨rfl, rfl⟩ | ⟨rfl, rfl⟩ | ⟨rfl, rfl⟩ | ⟨rfl, rfl⟩ <;> rfl

/-- A line that is none of the words. -/
theorem solveMem_of_ne (hz : 0 ∉ line) (hne : ∀ w ∈ words, line ≠ w.1) (n : Int) :
    solveMem n (line ++ [0]) = (skipWord (cstr "prime ") (line ++ [0])).bind solveRest := by
  obtain ⟨v₁, h₁, hv₁⟩ := strcmpMem_of_ne (w := cstr "latest\n") (by decide) hz (hne (_, 1) (by decide))
  obtain ⟨v₂, h₂, hv₂⟩ := strcmpMem_of_ne (w := cstr "resume\n") (by decide) hz (hne (_, 3) (by decide))
  obtain ⟨v₃, h₃, hv₃⟩ := strcmpMem_of_ne (w := cstr "pause\n") (by decide) hz (hne (_, 4) (by decide))
  obtain ⟨v₄, h₄, hv₄⟩ := strcmpMem_of_ne (w := cstr "end\n") (by decide) hz (hne (_, 5) (by decide))
  rw [solveMem, h₁, h₂, h₃, h₄]
  exact (if_neg hv₁).trans ((if_neg hv₂).trans ((if_neg hv₃).trans (if_neg hv₄)))

/-- **The lines with a number**: `prime `, digits and a newline, and whatever follows. -/
def Asks (ds line tail : List Nat) : Prop :=
  ∃ rest, line = cstr "prime " ++ rest ∧ Number ds rest tail

theorem solveMem_cases (hz : 0 ∉ line) (hne : ∀ w ∈ words, line ≠ w.1) (n : Int) :
    (∃ ds tail, Asks ds line tail ∧ solveMem n (line ++ [0]) = some (2, i32 (u32 (decimal ds 0 : Nat))))
      ∨ (¬ ∃ ds tail, Asks ds line tail) ∧ ∃ m, solveMem n (line ++ [0]) = some (0, m) := by
  rw [solveMem_of_ne hz hne]
  rcases skipWord_cases line zero_notMem_prime with
    ⟨rest, hline, hskip⟩ | ⟨hno, hskip⟩
  · rw [hskip, Option.bind_some]
    rcases digitLoop_cases rest 0 with ⟨ds, tail, h, hloop⟩ | ⟨hnone, hloop⟩
    · refine .inl ⟨ds, tail, ⟨rest, hline, h⟩, ?_⟩
      rw [← wrapped_eq]
      exact hloop
    · refine .inr ⟨?_, hloop⟩
      rintro ⟨ds, tail, rest', hline', h⟩
      have hrest : rest = rest' := List.append_cancel_left (hline.symm.trans hline')
      exact hnone ⟨ds, tail, hrest ▸ h⟩
  · rw [hskip]
    refine .inr ⟨?_, 0, rfl⟩
    rintro ⟨ds, tail, rest, hline, -⟩
    exact hno ⟨rest, hline⟩

theorem Numeral.asks (h : Numeral ds line) : Asks ds line [] := ⟨_, h.line, h.lt, rfl⟩

/-- A line is a request for one number only. -/
theorem Asks.unique {ds' : List Nat} (h : Asks ds line []) (h' : Asks ds' line []) : ds' = ds := by
  obtain ⟨rest, hline, hnum⟩ := h
  obtain ⟨rest', hline', hnum'⟩ := h'
  have hrest : rest = rest' := List.append_cancel_left (hline.symm.trans hline')
  have hdigits := hnum'.rest.symm.trans (hrest.symm.trans hnum.rest)
  exact List.map_injective_iff.mpr (fun _ _ he => Nat.add_left_cancel he)
    (List.append_cancel_right hdigits)

/-- No word is a request for a number. -/
theorem not_asks_of_word {tail : List Nat} (hw : w ∈ words.map Prod.fst) : ¬ Asks ds w tail := by
  rintro ⟨rest, hline, -⟩
  have htake : w.take 6 = cstr "prime " := by
    rw [hline]
    rfl
  have hwords : ∀ w ∈ words.map Prod.fst, w.take 6 ≠ cstr "prime " := by decide
  exact hwords w hw htake

/-- **The lines that `solve` takes for what they are.** -/
def Plain (line : List Nat) : Prop :=
  line ≠ cstr "prime \n" ∧ ∀ ds, Numeral ds line → decimal ds 0 < 0x80000000

/-- One of the words. -/
theorem understood_of_word (hmem : (line, r) ∈ words) : Understood line r n ∧ Plain line := by
  have hword : line ∈ words.map Prod.fst := List.mem_map.mpr ⟨_, hmem, rfl⟩
  have hno : ∀ ds, ¬ Numeral ds line := fun ds h => not_asks_of_word hword h.asks
  have hunique : ∀ w ∈ words, ∀ w' ∈ words, w.2 = w'.2 ↔ w.1 = w'.1 := by decide
  have htwo : ∀ w ∈ words, w.2 ≠ 2 := by decide
  refine ⟨⟨hunique _ hmem, ?_, ?_, ?_⟩, ?_, ?_⟩
  · exact iff_of_false (htwo _ hmem) fun ⟨ds, h⟩ => hno ds h
  · exact fun ds h => absurd h (hno ds)
  · exact fun hne => absurd rfl (hne _ hmem)
  · rintro rfl
    exact absurd hword (by decide)
  · exact fun ds h => absurd h (hno ds)

/-- Codes that are not of words. -/
theorem word_of_ne (hne : ∀ w ∈ words, line ≠ w.1) (hr : r = 0 ∨ r = 2) :
    ∀ w ∈ words, r = w.2 ↔ line = w.1 := fun w hw => by
  have hcodes : ∀ w ∈ words, (0 : Int) ≠ w.2 ∧ (2 : Int) ≠ w.2 := by decide
  refine iff_of_false ?_ (hne w hw)
  rcases hr with rfl | rfl
  · exact (hcodes w hw).1
  · exact (hcodes w hw).2

/-- A line with a number. -/
theorem understood_iff_of_asks (hne : ∀ w ∈ words, line ≠ w.1) (h : Asks ds line []) :
    Understood line 2 (i32 (u32 (decimal ds 0 : Nat))) ↔ Plain line := by
  have hnumeral : ∀ ds', Numeral ds' line → ds' = ds := fun ds' h' => h.unique h'.asks
  obtain ⟨rest, hline, hnum⟩ := h
  rw [hnum.rest] at hline
  by_cases hds : ds = []
  · have hempty : line = cstr "prime \n" := by
      rw [hline, hds]
      rfl
    refine iff_of_false (fun h => ?_) fun h => h.1 hempty
    obtain ⟨ds', h'⟩ := h.prime.mp rfl
    exact h'.ne ((hnumeral ds' h').trans hds)
  · have hself : Numeral ds line := ⟨hds, hnum.lt, hline⟩
    constructor
    · intro h
      refine ⟨fun hempty => ?_, fun ds' h' => ?_⟩
      · have hasks : Asks [] line [] := ⟨[10], hempty, nofun, rfl⟩
        exact hds (hasks.unique hself.asks)
      · rw [hnumeral ds' h', ← i32_u32_eq_iff]
        exact h.number ds hself
    · rintro ⟨-, hsmall⟩
      refine ⟨word_of_ne hne (.inr rfl), iff_of_true rfl ⟨ds, hself⟩, fun ds' h' => ?_, ?_⟩
      · rw [hnumeral ds' h']
        exact (i32_u32_eq_iff _).mpr (hsmall ds hself)
      · exact fun _ hnone => absurd ⟨ds, hself⟩ hnone

/-- Any other line. -/
theorem understood_of_not_asks (hne : ∀ w ∈ words, line ≠ w.1) (hno : ¬ ∃ ds tail, Asks ds line tail) :
    Understood line 0 m ∧ Plain line := by
  have hnone : ∀ ds, ¬ Numeral ds line := fun ds h => hno ⟨ds, [], h.asks⟩
  refine ⟨⟨word_of_ne hne (.inl rfl), ?_, ?_, ?_⟩, ?_, ?_⟩
  · exact iff_of_false (by decide) fun ⟨ds, h⟩ => hnone ds h
  · exact fun ds h => absurd h (hnone ds)
  · exact fun _ _ => rfl
  · exact fun hempty => hno ⟨[], [], [10], hempty, nofun, rfl⟩
  · exact fun ds h => absurd h (hnone ds)

/-- **`solve` returns for every line, without a read past its zero, and understands every line but
`prime ` without a digit, and those with numbers that are no `int`s.** -/
theorem solve_understands_iff (n : Int) (input : List Nat) : ∃ r m,
    solveMem n (typed input ++ [0]) = some (r, m) ∧ solveMem n (buffer input) = some (r, m)
      ∧ (Understood (typed input) r m ↔ Plain (typed input)) := by
  obtain ⟨junk, hbuf⟩ := buffer_eq input
  suffices hmain : ∃ r m, solveMem n (typed input ++ [0]) = some (r, m)
      ∧ (Understood (typed input) r m ↔ Plain (typed input)) by
    obtain ⟨r, m, hret, hiff⟩ := hmain
    exact ⟨r, m, hret, hbuf ▸ solveMem_append hret junk, hiff⟩
  by_cases hword : typed input ∈ words.map Prod.fst
  · obtain ⟨r, hmem, hret⟩ := solveMem_word hword
    obtain ⟨hund, hplain⟩ := understood_of_word (n := n) hmem
    exact ⟨r, n, hret n, iff_of_true hund hplain⟩
  · have hne : ∀ w ∈ words, typed input ≠ w.1 := fun w hw he =>
      hword (List.mem_map.mpr ⟨w, hw, he.symm⟩)
    rcases solveMem_cases (zero_notMem_typed input) hne n with ⟨ds, tail, hasks, hret⟩ | ⟨hno, m, hret⟩
    · -- the newline ends the line
      have htail : tail = [] := by
        obtain ⟨rest, hline, hnum⟩ := hasks
        rw [hnum.rest, ← List.append_assoc] at hline
        exact nil_of_typed hline
      exact ⟨2, _, hret, understood_iff_of_asks hne (htail ▸ hasks)⟩
    · obtain ⟨hund, hplain⟩ := understood_of_not_asks (m := m) hne hno
      exact ⟨0, m, hret, iff_of_true hund hplain⟩

/-- **No digit, and too many**: `prime ↵` asks for number zero, and `prime 4294967297↵` for number one. -/
theorem solve_misunderstands :
    (solveMem 0 (buffer (cstr "prime \n")) = some (2, 0) ∧ ¬ Understood (typed (cstr "prime \n")) 2 0)
    ∧ solveMem 0 (buffer (cstr "prime 4294967297\n")) = some (2, 1)
      ∧ ¬ Understood (typed (cstr "prime 4294967297\n")) 2 1 := by
  have hempty : typed (cstr "prime \n") = cstr "prime \n" := by decide
  have hlarge : typed (cstr "prime 4294967297\n") = cstr "prime 4294967297\n" := by decide
  refine ⟨⟨by decide, fun h => ?_⟩, by decide, fun h => ?_⟩
  · obtain ⟨ds, h'⟩ := h.prime.mp rfl
    have hasks : Asks [] (typed (cstr "prime \n")) [] := ⟨[10], hempty, nofun, rfl⟩
    exact h'.ne (hasks.unique h'.asks)
  · have hnum : Numeral [4, 2, 9, 4, 9, 6, 7, 2, 9, 7] (typed (cstr "prime 4294967297\n")) :=
      ⟨List.cons_ne_nil _ _, by decide, hlarge⟩
    exact absurd (h.number _ hnum) (by decide)

/-! ## The lines of a run

`solve` of the runs reads a list without a zero at its end, and returns a request.
-/

/-- The request that a code and `n` are. -/
def Request.ofCode (r m : Int) : Option Request :=
  if r = 1 then some .latest else if r = 2 then some (.prime m) else if r = 3 then some .resume
  else if r = 4 then some .pause else if r = 5 then some .end else none

theorem strcmpMem_eq (hw : 0 ∉ w) (hl : 0 ∉ line) :
    strcmpMem (w ++ [0]) (line ++ [0]) = some (strcmp w line) := by
  rw [strcmp]
  induction w generalizing line with
  | nil => cases line <;> rfl
  | cons a w ih =>
    obtain ⟨ha, hw⟩ := not_or.mp (List.mem_cons.not.mp hw)
    cases line with
    | nil =>
      have hne : ¬ (a ≠ 0 ∧ a = 0) := fun h => h.1 h.2
      exact (if_neg hne).trans (congrArg some (if_neg hne).symm)
    | cons c line =>
      obtain ⟨hc, hl⟩ := not_or.mp (List.mem_cons.not.mp hl)
      by_cases hac : a ≠ 0 ∧ a = c
      · exact (if_pos hac).trans ((ih hw hl).trans (congrArg some (if_pos hac).symm))
      · exact (if_neg hac).trans (congrArg some (if_neg hac).symm)

theorem digitLoop_digitsFrom (n : Int) (rest : List Nat) :
    (∃ m, digitsFrom n rest = some m ∧ digitLoop n (rest ++ [0]) = some (2, m))
      ∨ digitsFrom n rest = none ∧ ∃ m, digitLoop n (rest ++ [0]) = some (0, m) := by
  induction rest generalizing n with
  | nil => exact .inr ⟨rfl, n, rfl⟩
  | cons c rest ih =>
    rw [List.cons_append, digitsFrom, digitLoop]
    by_cases hnl : c = 10
    · exact .inl ⟨n, if_pos hnl, if_pos hnl⟩
    by_cases hdigit : 48 ≤ c ∧ c ≤ 57
    · rw [if_neg hnl, if_neg hnl, if_pos hdigit, if_neg (not_not.mpr hdigit)]
      exact ih _
    · rw [if_neg hnl, if_neg hnl, if_neg hdigit, if_pos hdigit]
      exact .inr ⟨rfl, n, rfl⟩

/-- **The two agree.** -/
theorem solve_eq_ofCode (hz : 0 ∉ line) (n : Int) :
    ∃ r m, solveMem n (line ++ [0]) = some (r, m) ∧ solve line = Request.ofCode r m := by
  have hmem : solveMem n (line ++ [0]) = if strcmp (cstr "latest\n") line = 0 then some (1, n)
      else if strcmp (cstr "resume\n") line = 0 then some (3, n)
      else if strcmp (cstr "pause\n") line = 0 then some (4, n)
      else if strcmp (cstr "end\n") line = 0 then some (5, n)
      else (skipWord (cstr "prime ") (line ++ [0])).bind solveRest := by
    rw [solveMem, strcmpMem_eq (by decide) hz, strcmpMem_eq (by decide) hz, strcmpMem_eq (by decide) hz,
      strcmpMem_eq (by decide) hz]
    rfl
  rw [hmem, solve]
  by_cases hlatest : strcmp (cstr "latest\n") line = 0
  · rw [if_pos hlatest, if_pos hlatest]
    exact ⟨1, n, rfl, rfl⟩
  rw [if_neg hlatest, if_neg hlatest]
  by_cases hresume : strcmp (cstr "resume\n") line = 0
  · rw [if_pos hresume, if_pos hresume]
    exact ⟨3, n, rfl, rfl⟩
  rw [if_neg hresume, if_neg hresume]
  by_cases hpause : strcmp (cstr "pause\n") line = 0
  · rw [if_pos hpause, if_pos hpause]
    exact ⟨4, n, rfl, rfl⟩
  rw [if_neg hpause, if_neg hpause]
  by_cases hend : strcmp (cstr "end\n") line = 0
  · rw [if_pos hend, if_pos hend]
    exact ⟨5, n, rfl, rfl⟩
  rw [if_neg hend, if_neg hend]
  rcases skipWord_cases line zero_notMem_prime with
    ⟨rest, rfl, hskip⟩ | ⟨hno, hskip⟩
  · have htake : (cstr "prime " ++ rest).take 6 = cstr "prime " := rfl
    have hdrop : (cstr "prime " ++ rest).drop 6 = rest := rfl
    rw [hskip, if_pos htake, hdrop]
    rcases digitLoop_digitsFrom 0 rest with ⟨m, hdigits, hloop⟩ | ⟨hdigits, m, hloop⟩
    · exact ⟨2, m, hloop, by rw [hdigits]; rfl⟩
    · exact ⟨0, m, hloop, by rw [hdigits]; rfl⟩
  · rw [hskip, if_neg fun htake => hno ⟨line.drop 6, by rw [← htake, List.take_append_drop]⟩]
    exact ⟨0, 0, rfl, rfl⟩

theorem solve_eq_ofCode_end : ∃ r m, solveMem 0 (cstr "end\n" ++ [0]) = some (r, m)
    ∧ solve (cstr "end\n") = Request.ofCode r m := solve_eq_ofCode (by decide) 0

end Xv6.Primes
