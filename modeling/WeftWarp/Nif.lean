import WeftWarp.Loader
import WeftWarp.Replan
import WeftWarp.Temporal

/-! # The native functions

The calls of the entry points of `taskweft_nif.cpp` that plan, replan and check times, and what these share. -/

namespace WeftWarp
namespace Nif

open TwJson (Thrown)
open TwLoader (TwLoaded loadJson)

/-- What a call raises. -/
inductive NifError where
  | thrown (e : Thrown)
  | runtimeError (what : String)
  deriving DecidableEq

variable {F : Type} [CxxMath F]

/-- What an entry point gets from its document. `load_cached` answers the same whether the document is cached or not. -/
def opened (json : String) : Except NifError (TwLoaded F) :=
  match loadJson json with
  | .ok (some found) => .ok found
  | .ok none => .error (.runtimeError "failed_to_load_domain")
  | .error e => .error (.thrown e)

omit [CxxMath F] in
/-- The call that an item of a plan stands for, none for an item that is no non-empty array. -/
def parseCall (item : TwValue F) : Option (TwCall F) :=
  match item.asArray with
  | [] => none
  | name :: args => some ⟨name.asString, args⟩

/-- `parse_plan`. -/
def parsePlan (json : String) : Except Thrown (List (TwCall F)) :=
  (TwJson.parseJsonStr json).map fun arr => arr.asArray.filterMap parseCall

/-- A call of an entry point with its arguments. -/
inductive NifCall where
  | plan (json : String)
  | replan (json planJson : String) (failStep : Int64)
  | checkTemporal (json planJson originIso : String)
  | planWithTemporal (json originIso : String)
  | domainCacheClear
  deriving DecidableEq

/-- `rebac_add_edge`. The graph goes through its text at every call; no cache is read. -/
def rebacAddEdge {F : Type} [Cxx F] (order : TwReBAC.HashOrder (TwValue F)) (graphJson subj obj rel : String) :
    Except Thrown String :=
  (TwReBAC.graphFromJson graphJson).map fun g => TwReBAC.graphToJson order (g.addEdge subj obj rel)

end Nif
end WeftWarp
