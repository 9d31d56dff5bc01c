import WeftWarp.Loader

/-! # Split documents

A domain and a problem that are kept apart. The command line tool merges the two JSON objects and hands the result to
the planner (`Taskweft.CLI`); `load_file_pair` of `tw_loader.hpp` loads each of them and merges what it has loaded. An
object of Elixir has no order; here a merged object keeps the order of its parts. -/

namespace WeftWarp

/-! ## `merge` of `Taskweft.CLI`

`none` stands for an exception, with which the tool halts. -/

namespace Cli
variable {F : Type} [DecidableEq F]

/-- `List.wrap(Map.get(domain, key))` -/
def wrapped (object : Dict F) (key : String) : List (TwValue F) :=
  match object.lookup key with
  | none | some .nil => []
  | some (.array xs) => xs
  | some v => [v]

/-- `Map.get(&1, "name")`, on a map. -/
def nameOf (varDef : TwValue F) : TwValue F := (varDef.asDict.lookup "name").getD .nil

def mergeVariables (domain problem : Dict F) : Option (Dict F) :=
  match problem.lookup "variables" with
  | none | some .nil => some domain
  | some (.array probVars) =>
    let domVars := wrapped domain "variables"
    -- `Map.get` raises on what is not a map
    if (probVars ++ domVars).all TwValue.isDict then
      let overridden := probVars.map nameOf
      let kept := domVars.filter fun varDef => nameOf varDef ∉ overridden
      some (setEntry "variables" (.array (kept ++ probVars)) domain)
    else none
  -- no clause matches
  | some _ => none

/-- `Map.merge` -/
def mapMerge (old new : Dict F) : Dict F :=
  new.foldl (fun map kv => setEntry kv.1 kv.2 map) old

def mergeMapField (problem : Dict F) (key : String) (domain : Dict F) :
    Option (Dict F) :=
  match problem.lookup key with
  | some (.dict value) =>
    match (domain.lookup key).getD (.dict []) with
    | .dict old => some (setEntry key (.dict (mapMerge old value)) domain)
    | _ => none
  | _ => some domain

def mergeTasks (problem domain : Dict F) : Dict F :=
  match problem.lookup "todo_list" with
  | some (.array (task :: tasks)) => setEntry "todo_list" (.array (task :: tasks)) domain
  | _ => domain

def merge (domain problem : Dict F) : Option (Dict F) := do
  let domain ← mergeVariables domain problem
  let domain ← mergeMapField problem "methods" domain
  let domain ← mergeMapField problem "actions" domain
  let domain ← mergeMapField problem "goal_methods" domain
  return mergeTasks problem domain

end Cli

/-! ## `load_file_pair` -/

namespace TwLoader
variable {F : Type} [CxxMath F]

end TwLoader
end WeftWarp
