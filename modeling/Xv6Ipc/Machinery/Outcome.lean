import Mathlib.Data.List.Basic

/-!
# Machinery/Outcome — what a computation may end with

State-passing code that may fail answers with a value and a new state, or with an error.  `Meets r E Q`
says that the answer `r` is a value and a state in `Q`, or an error in `E`:

    x s ── .ok (a, s') ──▸ Q a s'
     └──── .error e ─────▸ E e

A caller needs one such fact for each function it calls and puts them together with `Meets.bind`; a
loop over a list needs an invariant (`Meets.forM`).
-/

namespace Outcome

variable {σ ε α β : Type}

/-- The answer is in `Q`, or an error in `E`. -/
def Meets (r : Except ε (α × σ)) (E : ε → Prop) (Q : α → σ → Prop) : Prop :=
  match r with
  | .ok (a, s) => Q a s
  | .error e => E e

/-- Fail with `e` if the condition holds. -/
def failIf (c : Prop) [Decidable c] (e : ε) : StateT σ (Except ε) Unit := if c then throw e else pure ()

/-- Do something if the condition holds. -/
def whenever (c : Prop) [Decidable c] (x : StateT σ (Except ε) Unit) : StateT σ (Except ε) Unit :=
  if c then x else pure ()

section

variable {x : StateT σ (Except ε) α} {f : α → StateT σ (Except ε) β} {s s' : σ} {a : α}

/-- The rest of a computation, once its beginning is known. -/
theorem bind_of_ok (h : x s = .ok (a, s')) : (x >>= f) s = f a s' := by
  change Except.bind (x s) (fun p => f p.1 p.2) = _
  rw [h]
  rfl

/-- …and its beginning, once it is known to end. -/
theorem of_bind_ok {r : β × σ} (h : (x >>= f) s = .ok r) :
    ∃ a s', x s = .ok (a, s') ∧ f a s' = .ok r := by
  change Except.bind (x s) (fun p => f p.1 p.2) = _ at h
  cases hx : x s with
  | ok p =>
    rw [hx] at h
    exact ⟨p.1, p.2, rfl, h⟩
  | error e =>
    rw [hx] at h
    exact nomatch h

theorem of_get_ok {f : σ → StateT σ (Except ε) β} {r : β × σ} (h : (get >>= f) s = .ok r) :
    f s s = .ok r := h

theorem of_failIf_ok {c : Prop} [Decidable c] {e : ε} {u : Unit} (h : failIf c e s = .ok (u, s')) :
    ¬ c ∧ s' = s := by
  rw [failIf] at h
  split at h
  · exact nomatch h
  · exact ⟨‹_›, (Prod.mk.inj (Except.ok.inj h)).2.symm⟩

theorem of_check_ok {c : Prop} [Decidable c] {e : ε} {f : Unit → StateT σ (Except ε) β} {r : β × σ}
    (h : (failIf c e >>= f) s = .ok r) : ¬ c ∧ f () s = .ok r := by
  obtain ⟨u, s', hfail, hrest⟩ := of_bind_ok h
  obtain ⟨hc, rfl⟩ := of_failIf_ok hfail
  exact ⟨hc, hrest⟩

theorem failIf_of_not {c : Prop} [Decidable c] (e : ε) (h : ¬ c) (s : σ) :
    failIf c e s = .ok ((), s) := by
  rw [failIf, if_neg h]
  rfl

end

namespace Meets

variable {E E' : ε → Prop} {Q Q' : α → σ → Prop} {R : β → σ → Prop} {s s' : σ} {a : α} {e : ε}
  {x : StateT σ (Except ε) α} {f : α → StateT σ (Except ε) β} {y : StateT σ (Except ε) Unit}

/-- What the answer is, when it is one. -/
theorem ok (h : Meets (x s) E Q) (hr : x s = .ok (a, s')) : Q a s' := by
  rw [hr] at h
  exact h

theorem error (h : Meets (x s) E Q) (hr : x s = .error e) : E e := by
  rw [hr] at h
  exact h

/-- No error is allowed: there is an answer. -/
theorem returns (h : Meets (x s) (fun _ => False) Q) : ∃ a s', x s = .ok (a, s') ∧ Q a s' := by
  cases hx : x s with
  | ok p => exact ⟨p.1, p.2, rfl, h.ok hx⟩
  | error e => exact absurd (h.error hx) id

theorem mono (h : Meets (x s) E Q) (hE : ∀ e, E e → E' e) (hQ : ∀ a s', Q a s' → Q' a s') :
    Meets (x s) E' Q' := by
  cases hx : x s with
  | ok p => exact hQ p.1 p.2 (h.ok hx)
  | error e => exact hE e (h.error hx)

/-- The same errors, a weaker answer. -/
theorem imp (h : Meets (x s) E Q) (hQ : ∀ a s', Q a s' → Q' a s') : Meets (x s) E Q' :=
  h.mono (fun _ => id) hQ

/-- **One computation after another.** -/
theorem bind (h : Meets (x s) E Q) (hf : ∀ a s', Q a s' → Meets (f a s') E R) :
    Meets ((x >>= f) s) E R := by
  change Meets (Except.bind (x s) fun p => f p.1 p.2) E R
  cases hx : x s with
  | ok p => exact hf p.1 p.2 (h.ok hx)
  | error e => exact h.error hx

/-- …the first of which is known. -/
theorem step (h : x s = .ok (a, s')) (hf : Meets (f a s') E R) : Meets ((x >>= f) s) E R := by
  rw [bind_of_ok h]
  exact hf

theorem pure (h : Q a s) : Meets ((Pure.pure a : StateT σ (Except ε) α) s) E Q := h

/-- Reading the state. -/
theorem get {f : σ → StateT σ (Except ε) β} (h : Meets (f s s) E R) :
    Meets ((MonadState.get >>= f) s) E R := h

/-- Writing it. -/
theorem set {f : PUnit → StateT σ (Except ε) β} (h : Meets (f ⟨⟩ s') E R) :
    Meets ((MonadStateOf.set s' >>= f) s) E R := h

theorem modify {g : σ → σ} {f : PUnit → StateT σ (Except ε) β} (h : Meets (f ⟨⟩ (g s)) E R) :
    Meets ((modify g >>= f) s) E R := h

theorem failIf {c : Prop} [Decidable c] {Q : Unit → σ → Prop} (he : c → E e) (h : ¬ c → Q () s) :
    Meets (Outcome.failIf c e s) E Q := by
  rw [Outcome.failIf]
  split
  · exact he ‹_›
  · exact h ‹_›

/-- …and the rest, if it does not. -/
theorem check {c : Prop} [Decidable c] {f : Unit → StateT σ (Except ε) β} (he : c → E e)
    (h : ¬ c → Meets (f () s) E R) : Meets ((Outcome.failIf c e >>= f) s) E R := by
  by_cases hc : c
  · rw [Outcome.failIf, if_pos hc]
    exact he hc
  · exact .step (failIf_of_not e hc s) (h hc)

theorem whenever {c : Prop} [Decidable c] {Q : Unit → σ → Prop} (hy : c → Meets (y s) E Q)
    (h : ¬ c → Q () s) : Meets (Outcome.whenever c y s) E Q := by
  rw [Outcome.whenever]
  split
  · exact hy ‹_›
  · exact h ‹_›

/-- **The loop rule**: an invariant that speaks of what is still to do. -/
theorem forM {γ : Type} {g : γ → StateT σ (Except ε) PUnit} {I : List γ → σ → Prop} {l : List γ}
    (hs : I l s) (hstep : ∀ a l s, I (a :: l) s → Meets (g a s) E fun _ => I l) :
    Meets (l.forM g s) E fun _ => I [] := by
  induction l generalizing s with
  | nil => exact hs
  | cons a l ih => exact (hstep a l s hs).bind fun _ _ h => ih h

end Meets

end Outcome
