import WeftWarp.SolTree

/-! # Simulation and replanning

`tw_replan.hpp`: running a plan step by step, and planning again after a failure. -/

namespace WeftWarp

open TwJson (Thrown)

variable {F : Type} [Cxx F]

structure TwSimulateResult (F : Type) where
  completedSteps : Int
  failStep : Int
  failAction : String
  state : TwState F

omit [Cxx F] in
/-- The loop of `tw_simulate` from step `i` in state `cur`. -/
def simulateFrom (d : TwDomain F) : Nat → TwState F → List (TwCall F) → TwSimulateResult F
  | i, cur, [] => ⟨i, -1, "", cur⟩
  | i, cur, c :: plan =>
    match d.actions.find? c.name with
    | none => ⟨i, i, c.name, cur⟩
    | some act =>
      match act cur c.args with
      | none => ⟨i, i, c.name, cur⟩
      | some next => simulateFrom d (i + 1) next plan

omit [Cxx F] in
def twSimulate (s : TwState F) (plan : List (TwCall F)) (d : TwDomain F) : TwSimulateResult F :=
  simulateFrom d 0 s plan

structure TwReplanResult (F : Type) where
  simulate : TwSimulateResult F
  newPlan : Option (List (TwCall F))
  recovered : Bool
  blacklist : TwBlacklist

omit [Cxx F] in
/-- The simulation that opens both replanners. A `fail_step` inside the plan is taken as given: the report says
    that the steps before it completed. -/
def simulateTo (s : TwState F) (plan : List (TwCall F)) (d : TwDomain F) (failStep : Int) : TwSimulateResult F :=
  if 0 ≤ failStep then
    match plan[failStep.toNat]? with
    | none => twSimulate s plan d
    | some c => ⟨failStep, failStep, c.name, (twSimulate s (plan.take failStep.toNat) d).state⟩
  else twSimulate s plan d

/-- `blacklist.insert(tw_call_key(plan[fail_step]))` where the step is in the plan. -/
def blacklistStep (plan : List (TwCall F)) (failStep : Int) : TwBlacklist :=
  if 0 ≤ failStep then (plan[failStep.toNat]?.map twCallKey).toList else []

def twReplan (s : TwState F) (plan : List (TwCall F)) (tasks : List (TwTask F)) (d : TwDomain F)
    (failStep : Int) : Except Thrown (TwReplanResult F) :=
  let sim := simulateTo s plan d failStep
  let bl := blacklistStep plan sim.failStep
  (twPlan sim.state tasks d bl).map fun newPlan => ⟨sim, newPlan, newPlan.isSome, bl⟩

def twReplanIncremental (s : TwState F) (plan : List (TwCall F)) (tasks : List (TwTask F)) (d : TwDomain F)
    (tree : TwSolTree F) (failStep : Int) : Except Thrown (TwReplanResult F) :=
  let sim := simulateTo s plan d failStep
  if sim.failStep < 0 then .ok ⟨sim, some plan, true, []⟩
  else
    let bl := blacklistStep plan sim.failStep
    let ancestor := match tree.actionNodes[sim.failStep.toNat]? with
      | none => -1
      | some node => tree.nearestRetryableAncestor d node
    match if ancestor < 0 then none else tree.nodes[ancestor.toNat]? with
    | none => (twPlan sim.state tasks d bl).map fun newPlan => ⟨sim, newPlan, newPlan.isSome, bl⟩
    | some node =>
      let prefixLen := tree.prefixLength ancestor.toNat
      let start := (twSimulate s (plan.take prefixLen) d).state
      let skip : TwMethodSkip := OrderedMap.empty.set (twCallKey ⟨node.name, node.args⟩) [node.methodIdx]
      -- The whole task list is planned again behind the executed prefix.
      (twPlanWithTree start tasks d bl skip).map fun r =>
        match r.1 with
        | none => ⟨sim, none, false, bl⟩
        | some suffix => ⟨sim, some (plan.take prefixLen ++ suffix), true, bl⟩

def twReplanToJson (failStep : Int) (r : TwReplanResult F) (originalPlanJson newPlanJson : String) : String :=
  "\x7b\n  \"original_plan\": " ++ originalPlanJson ++ ",\n  \"fail_step\": " ++ toString failStep ++
    ",\n  \"completed_steps\": " ++ toString r.simulate.completedSteps ++
    ",\n  \"recovered\": " ++ (if r.recovered then "true" else "false") ++
    ",\n  \"new_plan\": " ++ newPlanJson ++ "\n\x7d"

end WeftWarp
