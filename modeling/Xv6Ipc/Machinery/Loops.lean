import Mathlib.Data.List.Basic

/-!
# Machinery/Loops — a loop over a list whose body may give up

The body answers `true` to go on and `false` to stop early, or fails; the loop answers `true` when
it came to the end.  A caller reasons about it through the three equations for a non-empty list,
one for each answer of the body, or through the invariant rule `each_rule`.
-/

namespace Loops

variable {α σ ε : Type*} {f : α → σ → Except ε (Bool × σ)} {a : α} {l : List α} {s s' : σ}

/-- Run `f` for each element, up to the first `false`. -/
def each (f : α → σ → Except ε (Bool × σ)) : List α → σ → Except ε (Bool × σ)
  | [], s => .ok (true, s)
  | a :: l, s =>
    match f a s with
    | .ok (true, s) => each f l s
    | r => r

@[simp] theorem each_nil (f : α → σ → Except ε (Bool × σ)) (s : σ) :
    each f [] s = .ok (true, s) := rfl

theorem each_cons_true (h : f a s = .ok (true, s')) : each f (a :: l) s = each f l s' := by
  rw [each, h]

theorem each_cons_false (h : f a s = .ok (false, s')) : each f (a :: l) s = .ok (false, s') := by
  rw [each, h]

theorem each_cons_error {e : ε} (h : f a s = .error e) : each f (a :: l) s = .error e := by
  rw [each, h]

/-- A loop that came to the end has come through its first turn. -/
theorem each_cons_ok (h : each f (a :: l) s = .ok (true, s')) :
    ∃ s₁, f a s = .ok (true, s₁) ∧ each f l s₁ = .ok (true, s') := by
  rw [each] at h
  rcases hf : f a s with e | ⟨_ | _, s₁⟩
  · rw [hf] at h
    exact nomatch h
  · rw [hf] at h
    exact nomatch h
  · rw [hf] at h
    exact ⟨s₁, rfl, h⟩

/-- A loop over two lists, one after the other. -/
theorem each_append {l' : List α} : each f (l ++ l') s = match each f l s with
    | .ok (true, s) => each f l' s
    | r => r := by
  induction l generalizing s with
  | nil => rfl
  | cons a l ih =>
    rw [List.cons_append, each, each]
    rcases f a s with e | ⟨_ | _, s'⟩
    · rfl
    · rfl
    · exact ih

/-- How a loop or a turn of it may end: going on in `I`, stopped in `J`, failed with `E`. -/
def Ends (I J : σ → Prop) (E : ε → Prop) : Except ε (Bool × σ) → Prop
  | .ok (true, s) => I s
  | .ok (false, s) => J s
  | .error e => E e

theorem Ends.cases {I J : σ → Prop} {E : ε → Prop} {r : Except ε (Bool × σ)} (h : Ends I J E r) :
    (∃ s, r = .ok (true, s) ∧ I s) ∨ (∃ s, r = .ok (false, s) ∧ J s) ∨ ∃ e, r = .error e ∧ E e := by
  match r, h with
  | .ok (true, s), h => exact .inl ⟨s, rfl, h⟩
  | .ok (false, s), h => exact .inr (.inl ⟨s, rfl, h⟩)
  | .error e, h => exact .inr (.inr ⟨e, rfl, h⟩)

/-- **The invariant rule.** -/
theorem each_rule {I J : σ → Prop} {E : ε → Prop} (hs : I s)
    (step : ∀ a ∈ l, ∀ s, I s → Ends I J E (f a s)) : Ends I J E (each f l s) := by
  induction l generalizing s with
  | nil => exact hs
  | cons a l ih =>
    obtain ⟨hstep, hrest⟩ := List.forall_mem_cons.mp step
    obtain ⟨s', hr, hi⟩ | ⟨s', hr, hj⟩ | ⟨e, hr, he⟩ := (hstep s hs).cases
    · rw [each_cons_true hr]
      exact ih hi hrest
    · rw [each_cons_false hr]
      exact hj
    · rw [each_cons_error hr]
      exact he

/-- **…and for a loop that counts.** -/
theorem each_range {f : Nat → σ → Except ε (Bool × σ)} {I : Nat → σ → Prop} {J : σ → Prop} {E : ε → Prop}
    {v n : Nat} (hs : I v s) (step : ∀ u s, v ≤ u → u < v + n → I u s → Ends (I (u + 1)) J E (f u s)) :
    Ends (I (v + n)) J E (each f (List.range' v n) s) := by
  induction n generalizing v s with
  | zero => exact hs
  | succ n ih =>
    rw [List.range'_succ, ← Nat.add_assoc, Nat.add_right_comm]
    obtain ⟨s', hr, hi⟩ | ⟨s', hr, hj⟩ | ⟨e, hr, he⟩ := (step v s (Nat.le_refl v) (by omega) hs).cases
    · rw [each_cons_true hr]
      exact ih hi fun u s hu hlt => step u s (by omega) (by omega)
    · rw [each_cons_false hr]
      exact hj
    · rw [each_cons_error hr]
      exact he

/-- A fold that may fail keeps what each turn of it keeps. -/
theorem foldlM_keeps {β : Type*} {g : σ → β → Except ε σ} {P : σ → Prop} {l : List β}
    (step : ∀ s b s', P s → g s b = .ok s' → P s') (hs : P s) (h : l.foldlM g s = .ok s') : P s' := by
  induction l generalizing s with
  | nil =>
    obtain rfl := Except.ok.inj h
    exact hs
  | cons b l ih =>
    rw [List.foldlM_cons] at h
    cases hb : g s b with
    | error e =>
      rw [hb] at h
      cases h
    | ok s₁ =>
      rw [hb] at h
      exact ih (step s b s₁ hs hb) h

end Loops
