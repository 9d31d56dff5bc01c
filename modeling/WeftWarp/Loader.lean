import WeftWarp.Domain
import WeftWarp.Nodes
import WeftWarp.Pointer

/-! # Domain documents

How `tw_loader.hpp` turns a document into a domain, an initial state and a task list. Expressions, actions and
methods of the document become functions of the state and the arguments. The `enums` of a document are handed
around but never read, and are left out. -/

namespace WeftWarp
namespace TwLoader
variable {F : Type} [CxxMath F]

open TwReBAC (TwReBACGraph baseExpr checkExpr)

/-- The array under a key, empty if there is none. -/
def getArr (d : Dict F) (k : String) : List (TwValue F) := ((d.lookup k).getD .nil).asArray

/-! ### Expressions -/

/-- `node_type`: the part of the type behind its last slash. -/
def nodeType (expr : Dict F) : String :=
  String.ofList (((expr.lookup "type").getD .nil).asString.toList.reverse.takeWhile (· ≠ '/')).reverse

def axisQuat (axis : Char) (a : F) : List F :=
  let s := CxxMath.sin (0.5 * a)
  let c := CxxMath.cos (0.5 * a)
  if axis = 'x' then [s, 0.0, 0.0, c] else if axis = 'y' then [0.0, s, 0.0, c] else [0.0, 0.0, s, c]

def qmul (a b : List F) : List F :=
  let at' := fun (v : List F) i => v[i]?.getD 0.0
  hamilton (at' a 0) (at' a 1) (at' a 2) (at' a 3) (at' b 0) (at' b 1) (at' b 2) (at' b 3)

/-- The order of axes that a `quatFromAngles` node asks for, `yxz` if it names no valid one. -/
def angleOrder (expr : Dict F) : List Char :=
  match ((expr.lookup "configuration").getD .nil).asDict.lookup "order" with
  | some (.string o) => if o ∈ ["xyz", "xzy", "yxz", "yzx", "zxy", "zyx"] then o.toList else ['y', 'x', 'z']
  | _ => ['y', 'x', 'z']

def quatFromAngles (order : List Char) (x y z : F) : TwValue F :=
  let turn := fun i =>
    let axis := order[i]?.getD 'z'
    axisQuat axis (if axis = 'x' then x else if axis = 'y' then y else z)
  floats (qmul (qmul (turn 0) (turn 1)) (turn 2))

/-- `eval_node` on the entries of a node and their values. The source evaluates an input when a branch asks for
    it; evaluation has no effect, so the values are all at hand here. -/
def evalNode (expr vals : Dict F) (params : Params F) (s : TwState F) : TwValue F :=
  let type := nodeType expr
  let get := fun k => (vals.lookup k).getD .nil
  if type = "" then .nil
  else if type = "get" then
    match expr.lookup "pointer" with
    | none => .nil
    | some ptr =>
      let (var, key) := parsePointer ptr.asString params
      if var = "" then .nil else s.getNested var key
  else if type = "check" ∧ (expr.lookup "rel").isSome then
    match s.rebacGraph with
    | none => .bool false
    | some g =>
      let rel := (expr.lookup "rel").getD .nil
      let rel := if rel.isString then baseExpr rel.asString else rel
      .bool (checkExpr g s.rebacFuel (get "subject").asString rel (get "object").asString)
  else if type = "combine3x3" then .array (["a", "b", "c", "d", "e", "f", "g", "h", "i"].map get)
  else if type = "combine4x4" then
    .array (["a", "b", "c", "d", "e", "f", "g", "h", "i", "j", "k", "l", "m", "n", "o", "p"].map get)
  else if type = "quatFromAngles" then
    quatFromAngles (angleOrder expr) (get "x").asNumber (get "y").asNumber (get "z").asNumber
  else if type = "select" then if (get "condition").asBool then get "a" else get "b"
  else if type = "switch" then
    match vals.lookup (toString (get "selection").asInt.toInt) with
    | some v => v
    | none => get "default"
  else if type = "clamp" then
    if (get "a").lt (get "b") then get "b" else if (get "c").lt (get "a") then get "c" else get "a"
  else if type = "mix" then
    -- `t` is the older name of `c`.
    let t := match vals.lookup "c", vals.lookup "t" with
      | some c, _ => c.asNumber
      | none, some t => t.asNumber
      | none, none => 0.0
    .float ((1.0 - t) * (get "a").asNumber + t * (get "b").asNumber)
  else if type = "random" then .float CxxMath.random
  else match kNodeTypes.lookup type with
    | some f => f (get "a") (get "b") (get "c") (get "d")
    | none => .nil

mutual

/-- `eval_expr`. Only a dictionary with a type is a node. -/
def evalExpr (params : Params F) (s : TwState F) : TwValue F → TwValue F
  | .dict kvs => if (kvs.lookup "type").isSome then evalNode kvs (evalEntries params s kvs) params s else .dict kvs
  | v => resolveParam v params

def evalEntries (params : Params F) (s : TwState F) : Dict F → Dict F
  | [] => []
  | (k, v) :: kvs => (k, evalExpr params s v) :: evalEntries params s kvs

end

/-! ### Parts of actions and methods -/

def buildParams (names args : List (TwValue F)) : Params F :=
  (names.zip args).foldl (fun p na => p.set na.1.asString na.2) .empty

/-- One round of `run_binds`. -/
def runBind (s : TwState F) (params : Params F) (bind : TwValue F) : Params F :=
  match bind.asDict.lookup "name", bind.asDict.lookup "pointer" with
  | some name, some ptr =>
    let (var, key) := parsePointer ptr.asString params
    if var = "" then params else params.set name.asString (s.getNested var key)
  | _, _ => params

/-- `run_binds`. A bind sees the parameters bound before it. -/
def runBinds (binds : List (TwValue F)) (params : Params F) (s : TwState F) : Params F := binds.foldl (runBind s) params

def holds (result : TwValue F) : Bool := result.isBool && result.asBool

def runChecks (checks : List (TwValue F)) (params : Params F) (s : TwState F) : Bool :=
  checks.all fun step =>
    match step.asDict.lookup "eval" with
    | none => false
    | some expr => holds (evalExpr params s expr)

/-- The call that one entry of `subtasks` stands for. -/
def expandSubtask (params : Params F) (d : TwValue F) : Option (TwTask F) :=
  match d.asArray with
  | [] => none
  | name :: args => some (.call ⟨(resolveParam name params).asString, args.map (resolveParam · params)⟩)

def expandSubtasks (defs : List (TwValue F)) (params : Params F) : List (TwTask F) :=
  defs.filterMap (expandSubtask params)

/-! ### Actions and methods -/

/-- One step of an action body: a guard or an effect. -/
def runStep (params : Params F) (s : TwState F) (step : TwValue F) : Option (TwState F) :=
  match step.asDict.lookup "eval", step.asDict.lookup "pointer/set" with
  | some expr, _ => if holds (evalExpr params s expr) then some s else none
  | none, some ptr =>
    let (var, key) := parsePointer ptr.asString params
    if var = "" then none
    else (step.asDict.lookup "value").map fun expr => s.setNested var key (evalExpr params s expr)
  | none, none => none

def runBody (params : Params F) : List (TwValue F) → TwState F → Option (TwState F)
  | [], s => some s
  | step :: body, s => (runStep params s step).bind (runBody params body)

def buildAction (d : Dict F) : TwActionFn F := fun s args =>
  runBody (runBinds (getArr d "bind") (buildParams (getArr d "params") args) s) (getArr d "body") s

def buildMethodAlt (paramNames : List (TwValue F)) (alt : Dict F) : TwMethodFn F := fun s args =>
  let params := runBinds (getArr alt "bind") (buildParams paramNames args) s
  if runChecks (getArr alt "check") params s then some (expandSubtasks (getArr alt "subtasks") params) else none

/-- A branch of a scan at a key: its subtasks if its checks pass. -/
def scanBranch (recurse : String) (s : TwState F) (br : Dict F) (key : String) :
    Option (List (TwTask F)) :=
  let params := runBinds (getArr br "bind") (OrderedMap.empty.set "_key" (.string key)) s
  if runChecks (getArr br "check") params s then
    let subtasks := expandSubtasks (getArr br "subtasks") params
    some (if recurse = "" then subtasks else subtasks ++ [.call ⟨recurse, []⟩])
  else none

/-- `build_scan_method`. A branch is tried at every key before the next branch. -/
def buildScanMethod (scan : Dict F) : TwMethodFn F := fun s _ =>
  let keys := (s.getVar ((scan.lookup "over").getD .nil).asString).asDict.map Prod.fst
  let recurse := ((scan.lookup "recurse").getD .nil).asString
  let branches := ((getArr scan "branches").filter TwValue.isDict).map TwValue.asDict
  match branches.findSome? fun br => keys.findSome? (scanBranch recurse s br) with
  | some subtasks => some subtasks
  | none => if runChecks (getArr scan "done") .empty s then some (expandSubtasks (getArr scan "done_subtasks") .empty) else none

/-! ### The document -/

structure TwLoaded (F : Type) where
  domain : TwDomain F
  state : TwState F
  tasks : List (TwTask F)

def kKnownKeys : List String :=
  ["@context", "@type", "name", "description", "version", "source", "enums", "variables", "actions", "methods",
    "todo_list", "capabilities"]

/-- The variable that an entry of `variables` declares. The entries of a dictionary are written one by one. -/
def loadVariable (s : TwState F) (varDef : TwValue F) : TwState F :=
  match varDef.asDict.lookup "name", varDef.asDict.lookup "init" with
  | some name, some (.dict init) => init.foldl (fun s kv => s.setNested name.asString (.string kv.1) kv.2) s
  | some name, some init => s.setVar name.asString init
  | _, _ => s

/-- A capability of an entity: an edge of the graph and an entry of the variable `_cap_<cap>`. -/
def loadCapability (entity : String) (gs : TwReBACGraph F × TwState F) (cap : TwValue F) :
    TwReBACGraph F × TwState F :=
  (gs.1.addEdge entity cap.asString "HAS_CAPABILITY",
    gs.2.setNested ("_cap_" ++ cap.asString) (.string entity) (.bool true))

def loadEntities (entities : Dict F) (gs : TwReBACGraph F × TwState F) :
    TwReBACGraph F × TwState F :=
  entities.foldl (fun gs ep => ep.2.asArray.foldl (loadCapability ep.1) gs) gs

def loadEdge (g : TwReBACGraph F) (ev : TwValue F) : TwReBACGraph F :=
  match ev.asDict.lookup "subject", ev.asDict.lookup "object", ev.asDict.lookup "rel" with
  | some subj, some obj, some rel => g.addEdge subj.asString obj.asString rel.asString
  | _, _, _ => g

def loadGraph (gm : Dict F) (g : TwReBACGraph F) : TwReBACGraph F :=
  let g := (getArr gm "edges").foldl loadEdge g
  ((gm.lookup "definitions").getD .nil).asDict.foldl (fun g dp => g.define dp.1 dp.2) g

/-- The relationship graph and the state that the `capabilities` give. -/
def loadCapabilities (caps : Dict F) (s : TwState F) : TwReBACGraph F × TwState F :=
  let (g, s) := loadEntities ((caps.lookup "entities").getD .nil).asDict (.empty, s)
  (loadGraph ((caps.lookup "graph").getD .nil).asDict g, s)

def loadAction (d : TwDomain F) (np : String × TwValue F) : TwDomain F :=
  if np.2.isDict then
    { d with
      actions := d.actions.set np.1 (buildAction np.2.asDict)
      actionDurations := match np.2.asDict.lookup "duration" with
        | some (.string dur) => d.actionDurations.set np.1 dur
        | _ => d.actionDurations }
  else d

def loadMethod (d : TwDomain F) (np : String × TwValue F) : TwDomain F :=
  if np.2.isDict then
    match np.2.asDict.lookup "scan", np.2.asDict.lookup "alternatives" with
    | some (.dict scan), _ => { d with taskMethods := d.taskMethods.set np.1 [buildScanMethod scan] }
    | _, some (.array alts) =>
      let names := getArr np.2.asDict "params"
      { d with
        taskMethods := d.taskMethods.set np.1
          ((alts.filter TwValue.isDict).map fun alt => buildMethodAlt names alt.asDict) }
    | _, _ => d
  else d

def multiGoalBindings (vp : String × TwValue F) : List (TwGoalBinding F) :=
  vp.2.asDict.map fun kp => ⟨vp.1, kp.1, kp.2⟩

def goalBinding (entry : TwValue F) : Option (TwGoalBinding F) :=
  match entry.asDict.lookup "pointer", entry.asDict.lookup "eq" with
  | some ptr, some desired =>
    let (var, key) := parsePointer ptr.asString (.empty : Params F)
    if var = "" then none else some ⟨var, key.toText, desired⟩
  | _, _ => none

/-- An item of `todo_list`; none where it fails the load. -/
def loadTask (taskDef : TwValue F) : Option (TwTask F) :=
  match taskDef with
  | .dict td =>
    match td.lookup "multigoal", td.lookup "goal" with
    | some (.dict mg), _ =>
      let bindings := mg.flatMap multiGoalBindings
      if bindings.isEmpty then none else some (.multiGoal ⟨bindings⟩)
    | _, some (.array g) =>
      let bindings := g.filterMap goalBinding
      if bindings.isEmpty then none else some (.goal ⟨bindings⟩)
    | _, _ => none
  | .array (name :: args) => some (.call ⟨name.asString, args⟩)
  | _ => none

def loadCallables (d : Dict F) : TwDomain F :=
  let domain := ((d.lookup "actions").getD .nil).asDict.foldl loadAction ⟨.empty, .empty, .empty⟩
  ((d.lookup "methods").getD .nil).asDict.foldl loadMethod domain

def loadState (d : Dict F) : TwState F :=
  let s := (getArr d "variables").foldl loadVariable .empty
  let (g, s) := loadCapabilities ((d.lookup "capabilities").getD .nil).asDict s
  { s with rebacGraph := some g }

/-- `load_domain`; none where the state of its result is null. -/
def loadDomain (data : TwValue F) : Option (TwLoaded F) :=
  match data with
  | .dict d =>
    if d.all fun kv => kKnownKeys.contains kv.1 then
      ((getArr d "todo_list").mapM loadTask).map fun tasks => ⟨loadCallables d, loadState d, tasks⟩
    else none
  | _ => none

def loadJson (json : String) : Except TwJson.Thrown (Option (TwLoaded F)) := (TwJson.parseJsonStr json).map loadDomain

/-! ### Plans as text -/

/-- A step of a plan. The name and the arguments are quoted as they are. -/
def callToJson (c : TwCall F) : String :=
  "[\"" ++ c.name ++ "\"" ++ String.join (c.args.map fun arg => ", \"" ++ arg.toText ++ "\"") ++ "]"

def planToJson (plan : List (TwCall F)) : String := "[" ++ ", ".intercalate (plan.map callToJson) ++ "]"

end TwLoader

/-! ### Nodes of a document -/

section Nodes
variable {F : Type}

mutual

/-- The dictionaries inside a value. -/
def TwValue.dicts : TwValue F → List (Dict F)
  | .array vs => listDicts vs
  | .dict kvs => kvs :: entryDicts kvs
  | _ => []

/-- The dictionaries inside the elements of an array. -/
def listDicts : List (TwValue F) → List (Dict F)
  | [] => []
  | v :: vs => v.dicts ++ listDicts vs

/-- The dictionaries inside the entries of a dictionary. -/
def entryDicts : Dict F → List (Dict F)
  | [] => []
  | (_, v) :: kvs => v.dicts ++ entryDicts kvs

end

/-- Every dictionary inside the value has the property. -/
def TwValue.AllDicts (p : Dict F → Prop) (v : TwValue F) : Prop := ∀ kvs ∈ v.dicts, p kvs

/-- No node of the document draws a random number. A `math/random` node draws a new one at each evaluation, while
    `CxxMath.random` is always the same. -/
def Calm (F : Type) [Cxx F] (json : String) : Prop :=
  ∀ data : TwValue F, TwJson.parseJsonStr json = .ok data → data.AllDicts fun kvs => TwLoader.nodeType kvs ≠ "random"

theorem calm_of_parse [Cxx F] {json : String} {data : TwValue F} (parsed : TwJson.parseJsonStr json = .ok data)
    (drawn : data.dicts.all (fun kvs => TwLoader.nodeType kvs != "random") = true) : Calm F json := by
  intro data' parsed'
  obtain rfl := Except.ok.inj (parsed.symm.trans parsed')
  exact fun kvs listed => bne_iff_ne.mp (List.all_eq_true.mp drawn kvs listed)

end Nodes
end WeftWarp
