import WeftWarp.Theorems.Exclusion
import WeftWarp.Theorems.MemoTransparency

/-! # The plain and the explaining planner

The two planners work on the same alternatives. Only the plain one asks the witness oracle, and only the explaining
one spends fuel on every step. -/

namespace WeftWarp

variable {F : Type} [Cxx F] {d : TwDomain F} {s : TwState F} {tasks : List (TwTask F)}

/-- The oracle says yes to the list. -/
def Accepts (d : TwDomain F) (x : Config F) : Prop :=
  ∃ wr, twWitnessOracleGoalReach x.1 x.2 d = .ok wr ∧ wr.found = true

/-- The lists that `tw_plan` asks the oracle about from `x` on up to the next choice. -/
inductive Asks (d : TwDomain F) (x : Config F) : Config F → Prop where
  | refl : Asks d x x
  | met {s : TwState F} {t : TwTask F} {rest : List (TwTask F)} (asks : Asks d x (s, t :: rest))
      (accepts : Accepts d (s, t :: rest)) (head : headOf d [] s t = .ok .met) : Asks d x (s, rest)
  | acts {s s' : TwState F} {t : TwTask F} {rest : List (TwTask F)} {c : TwCall F} (asks : Asks d x (s, t :: rest))
      (accepts : Accepts d (s, t :: rest)) (head : headOf d [] s t = .ok (.acts c s')) : Asks d x (s', rest)

theorem Asks.mem_of_closed {x y : Config F} {nodes : List (Config F)}
    (closed : ∀ x ∈ nodes, Expansion.nexts (treeExpand d [] .empty x) ⊆ nodes) (root : x ∈ nodes) (asks : Asks d x y) :
    y ∈ nodes := by
  induction asks with
  | refl => exact root
  | met _ _ head ih =>
    refine closed _ ih ?_
    rw [treeExpand, head]
    exact .head _
  | acts _ _ head ih =>
    refine closed _ ih ?_
    rw [treeExpand, head]
    exact .head _

/-- The lamp's domain without its methods. -/
def bareLampDomain : TwDomain Int := { lampDomain with taskMethods := .empty }

/-- The state in which the lamp is on. -/
def lampOn : TwState Int := TwState.empty.setNested "lamp" (.string "hall") (.bool true)

end WeftWarp
