import WeftWarp.Lib.Heap
import WeftWarp.Loader
import WeftWarp.Replan

/-! # States behind pointers

The planner and the replanner hold their states through `std::shared_ptr<TwState>`, and so does a loaded document. Here
the states stand in a heap and the code of `tw_loader.hpp`, `tw_planner.hpp` and `tw_replan.hpp` gets pointers to them:
who copies, who writes, and who only reads through the pointer is as in the source. The values inside a state are copied
deeply and its relationship graph is never written, so two states share nothing. A state that no pointer leads to
stays in the heap. -/

namespace WeftWarp
namespace Shared

open TwJson (Thrown)
open TwLoader (Params parsePointer getArr runBinds buildParams holds evalExpr)

/-! ### States in memory -/

section Cells
variable {F : Type} [Cxx F]

/-- A `TwState` in memory: its members and the memo of its hash, none where `sig_hash_valid` is false. -/
structure Cell (F : Type) [Cxx F] where
  state : TwState F
  sigHash : Option UInt64
  valid : ∀ hash, sigHash = some hash → hash = state.signatureHash

namespace Cell

/-- A state that was just built or written. -/
def unhashed (s : TwState F) : Cell F := ⟨s, none, fun _ memo => by cases memo⟩

def hashed (s : TwState F) : Cell F := ⟨s, some s.signatureHash, fun _ memo => (Option.some.inj memo).symm⟩

end Cell

abbrev Ref := Nat

abbrev HeapM (F : Type) [Cxx F] := StateM (List (Cell F))

def alloc (c : Cell F) : HeapM F Ref := modifyGet fun h => (h.length, h ++ [c])

/-- What the pointer leads to. The source has no dangling pointers. -/
def load (p : Ref) : HeapM F (Cell F) := do return (← get)[p]?.getD (.unhashed .empty)

def store (p : Ref) (c : Cell F) : HeapM F Unit := modify fun h => h.set p c

/-- `*state` -/
def deref (p : Ref) : HeapM F (TwState F) := do return (← load p).state

/-- `copy`. The memo is copied along. -/
def copy (p : Ref) : HeapM F Ref := do alloc (← load p)

def signatureHash (p : Ref) : HeapM F UInt64 := do
  let c ← load p
  match c.sigHash with
  | some hash => return hash
  | none =>
    store p (.hashed c.state)
    return c.state.signatureHash

def setNested (p : Ref) (var : String) (key val : TwValue F) : HeapM F Unit := do
  store p (.unhashed ((← deref p).setNested var key val))

end Cells

/-! ### Actions -/

section Actions
variable {F : Type} [CxxMath F]

/-- One round of the loop of an action over its body, false where the action returns null. -/
def runStep (params : Params F) (newState : Ref) (step : TwValue F) : HeapM F Bool := do
  match step.asDict.lookup "eval", step.asDict.lookup "pointer/set" with
  | some expr, _ => return holds (evalExpr params (← deref newState) expr)
  | none, some ptr =>
    let (var, key) := parsePointer ptr.asString params
    if var = "" then return false
    else match step.asDict.lookup "value" with
      | none => return false
      | some expr =>
        setNested newState var key (evalExpr params (← deref newState) expr)
        return true
  | none, none => return false

def runBody (params : Params F) (newState : Ref) : List (TwValue F) → HeapM F Bool
  | [] => return true
  | step :: body => do if ← runStep params newState step then runBody params newState body else return false

/-- `build_action`: the binds read the given state, the body works on a copy of it. -/
def buildAction (d : Dict F) (state : Ref) (args : List (TwValue F)) : HeapM F (Option Ref) := do
  let params := runBinds (getArr d "bind") (buildParams (getArr d "params") args) (← deref state)
  let newState ← copy state
  if ← runBody params newState (getArr d "body") then return some newState else return none

/-- `TwDomain` with what its closures have captured. A method only reads through its pointer. -/
structure Domain (F : Type) where
  actions : OrderedMap String (Dict F)
  taskMethods : OrderedMap String (List (TwMethodFn F))
  actionDurations : OrderedMap String String

/-- The domain as functions of states. -/
def Domain.view (d : Domain F) : TwDomain F :=
  ⟨d.actions.mapValues TwLoader.buildAction, d.taskMethods, d.actionDurations⟩

end Actions

/-! ### Search -/

section Search
variable {F : Type} [CxxMath F]

/-- `cache_key`: the hash of the state is memoised in it. -/
def cacheKey (memo : TwMemo F) (state : Ref) (tasks : List (TwTask F)) : HeapM F TwMemoKey := do
  if memo.failCache.isSome || memo.successCache.isSome then
    return twMixHash (← signatureHash state) (twTasksHash tasks)
  else return 0

/-- Where the fast path ends. -/
inductive Walk (F : Type) where
  | done (plan : List (TwCall F))
  | dead
  | branch (plan : List (TwCall F)) (state : Ref) (t : TwTask F) (rest : List (TwTask F))

section Walk
variable (d : Domain F) (bl : TwBlacklist) (tasks : List (TwTask F)) (cache : TwWitnessScanCache)

/-- The fast path of `tw_seek_plan`. An action gets a copy of the state. -/
def walk : Nat → Ref → List (TwCall F) → List (TwTask F) → HeapM F (Except Thrown (Walk F))
  | _, _, plan, [] => return .ok (.done plan)
  | idx, state, plan, t :: rest => do
    match twWitnessOracleGoalReachCached (← deref state) tasks d.view cache idx with
    | .error e => return .error e
    | .ok wr =>
      if !wr.found then return .ok .dead
      else match t with
        | .goal g =>
          match g.isSatisfied (← deref state) with
          | .error e => return .error e
          | .ok true => walk (idx + 1) state plan rest
          | .ok false => return .ok (.branch plan state t rest)
        | .multiGoal mg =>
          match mg.isSatisfied (← deref state) with
          | .error e => return .error e
          | .ok true => walk (idx + 1) state plan rest
          | .ok false => return .ok (.branch plan state t rest)
        | .call c =>
          match d.actions.find? c.name with
          | none => return .ok (.branch plan state t rest)
          | some act =>
            if blacklisted bl c then return .ok .dead
            else match ← buildAction act (← copy state) c.args with
              | none => return .ok .dead
              | some newState => walk (idx + 1) newState (plan ++ [c]) rest

end Walk

section Loops
variable (d : Domain F) (bl : TwBlacklist) (state : Ref)
variable (seek : List (TwTask F) → TwMemo F → HeapM F (Seek F))

/-- The loop over the methods of a goal or a task. The methods and the probe read the state. -/
def tryMethods (methods : List (TwMethodFn F)) (args : List (TwValue F)) (key : UInt64)
    (extend : List (TwTask F) → List (TwTask F)) : List Nat → List UInt64 → TwMemo F → HeapM F (Seek F)
  | [], _, memo => return .ok (none, memo)
  | midx :: order, seen, memo => do
    let s ← deref state
    match methods[midx]? >>= fun method => method s args with
    | none => tryMethods methods args key extend order seen memo
    | some subs =>
      let newTasks := extend subs
      let sig := twTasksHash newTasks
      if seen.contains sig then tryMethods methods args key extend order seen memo
      else match twPrefixPlausible d.view bl s 2 newTasks with
        | .error e => return .error e
        | .ok false => tryMethods methods args key extend order (sig :: seen) memo
        | .ok true =>
          match ← seek newTasks memo with
          | .error e => return .error e
          | .ok (some plan, memo) => return .ok (some plan, memo.note key midx true)
          | .ok (none, memo) => tryMethods methods args key extend order (sig :: seen) (memo.note key midx false)

def seekMethods (name : String) (args : List (TwValue F)) (extend : List (TwTask F) → List (TwTask F))
    (memo : TwMemo F) : HeapM F (Seek F) :=
  match d.taskMethods.find? name with
  | none => return .ok (none, memo)
  | some methods =>
    let key := twMethodCallHash name args
    let (order, stats) := twOrderMethods key methods.length memo.methodStats
    tryMethods d bl state seek methods args key extend order [] { memo with methodStats := stats }

def tryBindings (mg : TwMultiGoal F) (rest : List (TwTask F)) :
    List (TwGoalBinding F) → TwMemo F → HeapM F (Seek F)
  | [], memo => return .ok (none, memo)
  | b :: unmet, memo => do
    match ← seek (.goal ⟨[b]⟩ :: .multiGoal mg :: rest) memo with
    | .error e => return .error e
    | .ok (some plan, memo) => return .ok (some plan, memo)
    | .ok (none, memo) => tryBindings mg rest unmet memo

/-- The branching search at a task that needs a decision. -/
def seekBranch (t : TwTask F) (rest : List (TwTask F)) (memo : TwMemo F) : HeapM F (Seek F) := do
  match t with
  | .goal g =>
    match g.unsatisfied (← deref state) with
    | .error e => return .error e
    | .ok [] => return .ok (none, memo)
    | .ok (b :: _) =>
      seekMethods d bl state seek b.var [.string b.key, b.desired] (fun subs => subs ++ .goal g :: rest) memo
  | .multiGoal mg =>
    match mg.unsatisfied (← deref state) with
    | .error e => return .error e
    | .ok unmet => tryBindings seek mg rest unmet memo
  | .call c => seekMethods d bl state seek c.name c.args (fun subs => subs ++ rest) memo

end Loops

/-- The body of `tw_seek_plan`; `seek` is the recursive call, none when the fuel is used up. -/
def seekStep (d : Domain F) (bl : TwBlacklist)
    (seek : Option (Ref → List (TwTask F) → TwMemo F → HeapM F (Seek F)))
    (state : Ref) (tasks : List (TwTask F)) (memo : TwMemo F) : HeapM F (Seek F) := do
  if tasks.isEmpty then return .ok (some [], memo)
  else
    let key ← cacheKey memo state tasks
    match memo.lookup key with
    | some answer => return .ok (answer, memo)
    | none =>
      match ← walk d bl tasks (twBuildWitnessScanCache tasks d.view) 0 state [] tasks with
      | .error e => return .error e
      | .ok (.done plan) => return .ok (some plan, memo.markSuccess key plan)
      | .ok .dead => return .ok (none, memo.markFail key)
      | .ok (.branch plan state t rest) =>
        match seek with
        | none => return .ok (none, memo.markFail key)
        | some seek =>
          match ← seekBranch d bl state (seek state) t rest memo with
          | .error e => return .error e
          | .ok (none, memo) => return .ok (none, memo.markFail key)
          | .ok (some sub, memo) => return .ok (some (plan ++ sub), memo.markSuccess key (plan ++ sub))

def twSeekPlan (d : Domain F) (bl : TwBlacklist) : Nat → Ref → List (TwTask F) → TwMemo F → HeapM F (Seek F)
  | 0 => seekStep d bl none
  | fuel + 1 => seekStep d bl (some (twSeekPlan d bl fuel))

def twPlan (state : Ref) (tasks : List (TwTask F)) (d : Domain F) (bl : TwBlacklist) :
    HeapM F (Except Thrown (Option (List (TwCall F)))) := do
  return (← twSeekPlan d bl twMaxDepth state tasks .fresh).map Prod.fst

end Search

/-! ### Replanning -/

section Replan
variable {F : Type} [CxxMath F]

structure SimulateResult where
  completedSteps : Int
  failStep : Int
  failAction : String
  state : Ref

/-- The result with the state that it points to. -/
def SimulateResult.value (r : SimulateResult) : HeapM F (TwSimulateResult F) := do
  return ⟨r.completedSteps, r.failStep, r.failAction, ← deref r.state⟩

/-- The loop of `tw_simulate`. An action gets the state itself. -/
def simulateFrom (d : Domain F) : Nat → Ref → List (TwCall F) → HeapM F SimulateResult
  | i, cur, [] => return ⟨i, -1, "", cur⟩
  | i, cur, c :: plan => do
    match d.actions.find? c.name with
    | none => return ⟨i, i, c.name, cur⟩
    | some act =>
      match ← buildAction act cur c.args with
      | none => return ⟨i, i, c.name, cur⟩
      | some next => simulateFrom d (i + 1) next plan

def twSimulate (initState : Ref) (plan : List (TwCall F)) (d : Domain F) : HeapM F SimulateResult := do
  simulateFrom d 0 (← copy initState) plan

def simulateTo (initState : Ref) (plan : List (TwCall F)) (d : Domain F) (failStep : Int) :
    HeapM F SimulateResult := do
  if 0 ≤ failStep then
    match plan[failStep.toNat]? with
    | none => twSimulate initState plan d
    | some c =>
      let sim ← twSimulate initState (plan.take failStep.toNat) d
      return ⟨failStep, failStep, c.name, sim.state⟩
  else twSimulate initState plan d

def twReplan (initState : Ref) (plan : List (TwCall F)) (tasks : List (TwTask F)) (d : Domain F)
    (failStep : Int) : HeapM F (Except Thrown (TwReplanResult F)) := do
  let sim ← simulateTo initState plan d failStep
  let bl := blacklistStep plan sim.failStep
  match ← twPlan sim.state tasks d bl with
  | .error e => return .error e
  | .ok newPlan => return .ok ⟨← sim.value, newPlan, newPlan.isSome, bl⟩

end Replan

/-! ### Loading -/

section Load
variable {F : Type} [CxxMath F]

open TwLoader (kKnownKeys loadTask loadState)

/-- `TwLoaded` with a state that is not null. -/
structure Loaded (F : Type) where
  domain : Domain F
  state : Ref
  tasks : List (TwTask F)

omit [CxxMath F] in
def definitionOf (v : TwValue F) : Option (Dict F) := if v.isDict then some v.asDict else none

def loadCallables (d : Dict F) : Domain F where
  actions := .writeAll definitionOf ((d.lookup "actions").getD .nil).asDict .empty
  taskMethods := (TwLoader.loadCallables d).taskMethods
  actionDurations := (TwLoader.loadCallables d).actionDurations

def loadDomain (data : TwValue F) : HeapM F (Option (Loaded F)) := do
  match data with
  | .dict d =>
    if d.all fun kv => kKnownKeys.contains kv.1 then
      match (getArr d "todo_list").mapM loadTask with
      | none => return none
      | some tasks => return some ⟨loadCallables d, ← alloc (.unhashed (loadState d)), tasks⟩
    else return none
  | _ => return none

def loadJson (json : String) : HeapM F (Except Thrown (Option (Loaded F))) := do
  match TwJson.parseJsonStr json with
  | .error e => return .error e
  | .ok data => return .ok (← loadDomain data)

end Load
end Shared
end WeftWarp
