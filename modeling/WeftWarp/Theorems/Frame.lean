import WeftWarp.Theorems.PlanReturns

/-! # Changes that planning does not observe

A change of the state that actions carry along, that methods do not see and that goal checks do not notice does not
change what `tw_plan` returns, as long as the memo keys tell apart what the two runs meet. -/

namespace WeftWarp

variable {F : Type} [Cxx F] {d : TwDomain F} {bl : TwBlacklist}

/-! ### Goal checks -/

/-- Every check on the list comes out the same in both states. -/
def SameChecks (s s' : TwState F) (tasks : List (TwTask F)) : Prop :=
  ∀ t ∈ tasks, ∀ b ∈ t.bindings, b.satisfied s' = b.satisfied s

section Checks
variable {s s' : TwState F} {bs : List (TwGoalBinding F)} {tasks : List (TwTask F)}

variable {t : TwTask F}

end Checks

/-! ### Frames -/

/-- The change `f` of the states is not observed where `I` holds, and decompositions keep to `I`. -/
structure Frame (d : TwDomain F) (f : TwState F → TwState F) (I : Config F → Prop) : Prop where
  step : ∀ {x l y}, I x → Step d x l y → I y
  carries : ∀ {s c rest act}, I (s, .call c :: rest) → d.actions.find? c.name = some act →
    act (f s) c.args = (act s c.args).map f
  unseen : ∀ {x name args methods method}, I x → Invokes d x (.method name args) →
    d.taskMethods.find? name = some methods → method ∈ methods → method (f x.1) args = method x.1 args
  checks : ∀ {x}, I x → SameChecks x.1 (f x.1) x.2

/-- The change of the state behind the head of a list. -/
def Head.map (f : TwState F → TwState F) : Head F → Head F
  | .acts c s => .acts c (f s)
  | .met => .met
  | .stuck => .stuck
  | .undecided => .undecided

/-- The change of the state at the end of a walk. -/
def Walk.map (f : TwState F → TwState F) : Walk F → Walk F
  | .branch p s t rest => .branch p (f s) t rest
  | .done p => .done p
  | .dead => .dead

namespace Frame
variable {f : TwState F → TwState F} {I : Config F → Prop}
variable {rest tasks : List (TwTask F)} {s : TwState F} {t : TwTask F} {args : List (TwValue F)} {x : Config F}

theorem of_run (frame : Frame d f I) {y : Config F} {q : List (TwCall F)} (run : Run (Step d) x q y) (h : I x) : I y :=
  run.invariant (fun _ _ _ step hx => frame.step hx step) h

end Frame

/-! ### Plans -/

end WeftWarp
