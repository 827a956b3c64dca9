import Mathlib.Data.List.Basic

/-!
# Machinery/Runs — runs of a transition system

A system is a relation `step s e s'`: from `s`, event `e` may lead to `s'`.  A run is a list of events
between two states, and what every step keeps, every run keeps:

    init ∋ s₀ ──e₁──▸ s₁ ──e₂──▸ s₂ ──▸ …          P s₀  and  P kept  ⟹  P sₙ

-/

namespace Runs

variable {S E : Type*}

/-- **A run**, with its events from first to last. -/
inductive Trace (step : S → E → S → Prop) : S → List E → S → Prop
  | nil (s : S) : Trace step s [] s
  | snoc {s t u : S} {es : List E} {e : E} :
    Trace step s es t → step t e u → Trace step s (es ++ [e]) u

/-- The states that runs reach. -/
inductive Reach (init : S → Prop) (step : S → E → S → Prop) : S → Prop
  | init {s : S} : init s → Reach init step s
  | step {s t : S} {e : E} : Reach init step s → step s e t → Reach init step t

variable {init : S → Prop} {step step' : S → E → S → Prop} {s t u : S} {es es' : List E} {e : E}
  {P : S → Prop}

/-- A single step. -/
theorem Trace.single (h : step s e t) : Trace step s [e] t := (Trace.nil s).snoc h

/-- Runs compose. -/
theorem Trace.append (h : Trace step s es t) (h' : Trace step t es' u) :
    Trace step s (es ++ es') u := by
  induction h' with
  | nil => rwa [List.append_nil]
  | snoc _ hstep ih =>
    rw [← List.append_assoc]
    exact ih.snoc hstep

/-- A run, first step first. -/
theorem Trace.cons (h : step s e t) (h' : Trace step t es u) : Trace step s (e :: es) u :=
  (Trace.single h).append h'

/-- A run from a reachable state ends in one. -/
theorem Reach.trace (h : Reach init step s) (hr : Trace step s es t) : Reach init step t := by
  induction hr with
  | nil => exact h
  | snoc _ hstep ih => exact ih.step hstep

/-- The last step of a run. -/
theorem Trace.of_snoc (h : Trace step s (es ++ [e]) u) : ∃ t, Trace step s es t ∧ step t e u := by
  generalize hl : es ++ [e] = l at h
  cases h with
  | nil => exact absurd hl (List.append_ne_nil_of_right_ne_nil _ (List.cons_ne_nil _ _))
  | snoc h hlast =>
    obtain ⟨rfl, he⟩ := List.append_inj' hl rfl
    obtain rfl := List.singleton_inj.mp he
    exact ⟨_, h, hlast⟩

/-- A run of one system is one of another that can do its steps. -/
theorem Trace.restrict (h : Trace step s es t)
    (hle : ∀ s e t, e ∈ es → step s e t → step' s e t) : Trace step' s es t := by
  induction h with
  | nil => exact .nil _
  | snoc _ hlast ih =>
    exact (ih fun s e t he => hle s e t (by simp [he])).snoc (hle _ _ _ (by simp) hlast)

/-- **The invariant rule**, along one run and for the events it performs. -/
theorem Trace.keeps (h : Trace step s es t) (hs : P s)
    (hstep : ∀ s e s', e ∈ es → P s → step s e s' → P s') : P t := by
  induction h with
  | nil => exact hs
  | snoc _ hlast ih =>
    exact hstep _ _ _ (by simp) (ih fun s e s' he => hstep s e s' (by simp [he])) hlast

/-- **The invariant rule**, for every state reached. -/
theorem Reach.keeps (h : Reach init step s) (hinit : ∀ s, init s → P s)
    (hstep : ∀ s e s', P s → step s e s' → P s') : P s := by
  induction h with
  | init hs => exact hinit _ hs
  | step _ hlast ih => exact hstep _ _ _ ih hlast

/-- A system that can do less reaches less. -/
theorem Reach.mono (h : Reach init step s) (hle : ∀ s e t, step s e t → step' s e t) :
    Reach init step' s := by
  induction h with
  | init hs => exact .init hs
  | step _ hlast ih => exact .step ih (hle _ _ _ hlast)

end Runs
