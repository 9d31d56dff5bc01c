import WeftWarp.State

/-! # Goals, tasks and domains

The types of `tw_domain.hpp`. A goal check is the only place where planning can leave with an exception: the
variable of a binding may be the text of a relation expression, which is parsed at every check. -/

namespace WeftWarp

open TwJson (Thrown)
open TwReBAC (baseExpr checkExpr)

structure TwCall (F : Type) where
  name : String
  args : List (TwValue F)
  deriving DecidableEq

structure TwGoalBinding (F : Type) where
  var : String
  key : String
  desired : TwValue F
  deriving DecidableEq

structure TwGoal (F : Type) where
  bindings : List (TwGoalBinding F)
  deriving DecidableEq

structure TwMultiGoal (F : Type) where
  bindings : List (TwGoalBinding F)
  deriving DecidableEq

inductive TwTask (F : Type) where
  | call (c : TwCall F)
  | goal (g : TwGoal F)
  | multiGoal (mg : TwMultiGoal F)
  deriving DecidableEq

/-! ### Satisfaction -/

section Satisfaction
variable {F : Type} [Cxx F]

def TwGoalBinding.satisfied (b : TwGoalBinding F) (s : TwState F) : Except Thrown Bool :=
  match s.rebacGraph with
  | none => .ok ((s.getNested b.var (.string b.key)).eq b.desired)
  | some g =>
    if g.edges.isEmpty then .ok ((s.getNested b.var (.string b.key)).eq b.desired)
    else if b.var.toList.head? = some '\x7b' then
      match TwJson.parseJsonStr b.var with
      | .error e => .error e
      | .ok expr =>
        -- A text that is no dictionary fails the check.
        if expr.isDict then .ok (checkExpr g s.rebacFuel b.key expr b.desired.asString) else .ok false
    else .ok (checkExpr g s.rebacFuel b.key (baseExpr b.var) b.desired.asString)

/-- The loop of `is_satisfied`: it stops at the first binding that fails. -/
def bindingsSatisfied (s : TwState F) : List (TwGoalBinding F) → Except Thrown Bool
  | [] => .ok true
  | b :: bs =>
    match b.satisfied s with
    | .error e => .error e
    | .ok false => .ok false
    | .ok true => bindingsSatisfied s bs

/-- The loop of `unsatisfied`: it checks every binding. -/
def bindingsUnsatisfied (s : TwState F) : List (TwGoalBinding F) → Except Thrown (List (TwGoalBinding F))
  | [] => .ok []
  | b :: bs =>
    match b.satisfied s with
    | .error e => .error e
    | .ok sat => (bindingsUnsatisfied s bs).map fun unmet => if sat then unmet else b :: unmet

def TwGoal.isSatisfied (g : TwGoal F) (s : TwState F) : Except Thrown Bool := bindingsSatisfied s g.bindings

def TwGoal.unsatisfied (g : TwGoal F) (s : TwState F) : Except Thrown (List (TwGoalBinding F)) :=
  bindingsUnsatisfied s g.bindings

def TwMultiGoal.isSatisfied (mg : TwMultiGoal F) (s : TwState F) : Except Thrown Bool :=
  bindingsSatisfied s mg.bindings

def TwMultiGoal.unsatisfied (mg : TwMultiGoal F) (s : TwState F) : Except Thrown (List (TwGoalBinding F)) :=
  bindingsUnsatisfied s mg.bindings

end Satisfaction

/-! ### Domains -/

/-- `TwActionFn`: the new state, or none where the action does not apply. -/
abbrev TwActionFn (F : Type) := TwState F → List (TwValue F) → Option (TwState F)

/-- `TwMethodFn`: the subtasks, or none where the method does not apply. -/
abbrev TwMethodFn (F : Type) := TwState F → List (TwValue F) → Option (List (TwTask F))

structure TwDomain (F : Type) where
  actions : OrderedMap String (TwActionFn F)
  taskMethods : OrderedMap String (List (TwMethodFn F))
  actionDurations : OrderedMap String String

namespace TwDomain
variable {F : Type}

def hasAction (d : TwDomain F) (n : String) : Bool := (d.actions.find? n).isSome

def hasTask (d : TwDomain F) (n : String) : Bool := (d.taskMethods.find? n).isSome

end TwDomain
end WeftWarp
