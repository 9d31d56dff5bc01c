import Mathlib.Data.List.Basic

/-! Runs of a system whose steps may carry a label. -/

namespace WeftWarp

variable {σ ℓ : Type} {step : σ → Option ℓ → σ → Prop}

/-- A run from one state to another, with the labels of its steps in order. -/
inductive Run (step : σ → Option ℓ → σ → Prop) : σ → List ℓ → σ → Prop where
  | refl (x : σ) : Run step x [] x
  | step {x y z : σ} {l : Option ℓ} {q : List ℓ} (h : step x l y) (r : Run step y q z) : Run step x (l.toList ++ q) z

namespace Run

variable {q : List ℓ} {x y z : σ}

theorem silent (h : step x none y) (r : Run step y q z) : Run step x q z := .step h r

theorem label {l : ℓ} (h : step x (some l) y) (r : Run step y q z) : Run step x (l :: q) z := .step h r

theorem trans {p : List ℓ} (hp : Run step x p y) (hq : Run step y q z) : Run step x (p ++ q) z := by
  induction hp with
  | refl => exact hq
  | step h _ ih =>
    rw [List.append_assoc]
    exact .step h (ih hq)

/-- A property that every step keeps holds along a run. -/
theorem invariant {P : σ → Prop} (hstep : ∀ x l y, step x l y → P x → P y) (r : Run step x q y) (hx : P x) : P y := by
  induction r with
  | refl => exact hx
  | step h _ ih => exact ih (hstep _ _ _ h hx)

/-- Where every step keeps a property, every label is one of a step from a state that has it. -/
theorem labels {P : σ → Prop} {Q : ℓ → Prop} (hstep : ∀ x l y, step x l y → P x → P y)
    (hlabel : ∀ x a y, step x (some a) y → P x → Q a) (r : Run step x q y) (hx : P x) : ∀ a ∈ q, Q a := by
  induction r with
  | refl => exact fun a mem => nomatch mem
  | @step x y z l q h _ ih =>
    intro a mem
    rcases List.mem_append.mp mem with mem | mem
    · obtain rfl := Option.mem_toList.mp mem
      exact hlabel x a y h hx
    · exact ih (hstep _ _ _ h hx) a mem

end Run
end WeftWarp
