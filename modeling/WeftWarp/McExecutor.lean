import WeftWarp.Loader

/-! # The Monte Carlo executor

`tw_mc_executor.hpp`: a plan is run step by step, and each step succeeds with its probability. The generator is a
parameter: the numbers it draws from a seed, one for each step that is tried. -/

namespace WeftWarp
namespace TwMCExecutor

open TwJson (Thrown)
open TwLoader (loadJson)

variable {F : Type}

/-- The call that a step of the plan stands for. Anything but a non-empty array has the empty name. -/
def stepCall (step : TwValue F) : TwCall F :=
  match step.asArray with
  | [] => ⟨"", []⟩
  | name :: args => ⟨name.asString, args⟩

/-- A step that is drawn as successful. A name without action changes nothing. -/
def applyAction (d : TwDomain F) (state : TwState F) (c : TwCall F) : Option (TwState F) :=
  match d.actions.find? c.name with
  | none => some state
  | some action => action state c.args

/-- One entry of `"steps"`: the step, and the state behind it if it succeeded. -/
structure StepResult (F : Type) where
  action : TwValue F
  state : Option (TwState F)

structure Report (F : Type) where
  steps : List (StepResult F)
  completed : Nat
  failedAt : Option Nat

variable [CxxMath F]

/-- The loop of `mc_execute` from step `i`. -/
def run (d : TwDomain F) (probs : List F) (draw : Nat → F) : Nat → TwState F → List (TwValue F) → Report F
  | i, _, [] => ⟨[], i, none⟩
  | i, state, step :: steps =>
    let prob := probs[i]?.getD 1.0
    match if Cxx.lt (draw i) prob then applyAction d state (stepCall step) else none with
    | none => ⟨[⟨step, none⟩], i, some i⟩
    | some next =>
      let r := run d probs draw (i + 1) next steps
      { r with steps := ⟨step, some next⟩ :: r.steps }

def stepValue (r : StepResult F) : TwValue F :=
  .dict [("action", r.action), ("succeeded", .bool r.state.isSome),
    ("state_json", match r.state with
      | some s => .string (TwJson.toJson (.dict s.vars.entries))
      | none => .nil)]

def reportToJson (r : Report F) : String :=
  "\x7b\"steps\":" ++ TwJson.toJson (.array (r.steps.map stepValue)) ++ ",\"completed\":" ++ toString r.completed ++
    ",\"failed_at\":" ++ (match r.failedAt with
      | some i => toString i
      | none => "null") ++ "\x7d"

def probability (p : TwValue F) : F := if p.isNumber then p.asNumber else 1.0

def mcExecute (draws : Int64 → Nat → F) (domainJson planJson probsJson : String) (seed : Int64) : Except Thrown String := do
  match ← loadJson (F := F) domainJson with
  | none => return "\x7b\"error\":\"failed_to_load_domain\"\x7d"
  | some loaded =>
    let plan ← TwJson.parseJsonStr (F := F) planJson
    let probs ← TwJson.parseJsonStr (F := F) probsJson
    return reportToJson (run loaded.domain (probs.asArray.map probability) (draws seed) 0 loaded.state plan.asArray)

end TwMCExecutor
end WeftWarp
