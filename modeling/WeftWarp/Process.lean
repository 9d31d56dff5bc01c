import WeftWarp.Nif
import WeftWarp.Shared

/-! # The native functions in their process

The entry points of `taskweft_nif.cpp`. States are behind pointers: the cache holds a pointer to the initial state of
every document, and a call works on a copy of it. -/

namespace WeftWarp
namespace Shared

open Nif (NifError NifCall parsePlan)
open TwJson (Thrown)
open TwLoader (planToJson)

variable {F : Type} [CxxMath F]

/-- The memory of the process and `s_domain_cache`. -/
structure Process (F : Type) [CxxMath F] where
  heap : List (Cell F)
  domainCache : OrderedMap String (Option (Loaded F))

def Process.fresh : Process F := ⟨[], .empty⟩

abbrev CallM (F : Type) [CxxMath F] := ExceptT NifError (StateM (Process F))

/-- What a call returns or raises, and the process behind it. -/
def CallM.call {α : Type} (m : CallM F α) (pr : Process F) : Except NifError α × Process F := m.run.run pr

def onHeap {α : Type} (m : HeapM F α) : CallM F α :=
  modifyGet fun pr => ((m.run pr.heap).1, { pr with heap := (m.run pr.heap).2 })

/-- The part of `load_cached` behind the lookup: the state of the result is a copy. -/
def withCopy : Option (Loaded F) → CallM F (Option (Loaded F))
  | none => return none
  | some loaded => do return some { loaded with state := ← onHeap (copy loaded.state) }

def loadCached (json : String) : CallM F (Option (Loaded F)) := do
  match (← get).domainCache.find? json with
  | some loaded => withCopy loaded
  | none =>
    match ← onHeap (loadJson json) with
    | .error e => throw (.thrown e)
    | .ok loaded =>
      modify fun pr => { pr with domainCache := pr.domainCache.set json loaded }
      withCopy loaded

def loaded (json : String) : CallM F (Loaded F) := do
  match ← loadCached json with
  | none => throw (.runtimeError "failed_to_load_domain")
  | some loaded => return loaded

def raising {α : Type} : Except Thrown α → CallM F α
  | .ok a => return a
  | .error e => throw (.thrown e)

/-- The document of a call, and what its entry point does with it once it is loaded. `domain_cache_clear` has none. -/
def entry : NifCall → Option (String × (Loaded F → CallM F String))
  | .plan json => some (json, fun loaded => do
    match ← raising (← onHeap (twPlan loaded.state loaded.tasks loaded.domain [])) with
    | none => throw (.runtimeError "no_plan")
    | some plan => return planToJson plan)
  | .replan json planJson failStep => some (json, fun loaded => do
    let originalPlan ← raising (parsePlan planJson)
    let step := failStep.toInt32.toInt
    let rr ← raising (← onHeap (twReplan loaded.state originalPlan loaded.tasks loaded.domain step))
    let newPlanJson := match rr.newPlan with
      | some plan => planToJson plan
      | none => "null"
    return twReplanToJson step rr (planToJson originalPlan) newPlanJson)
  | .checkTemporal json planJson originIso => some (json, fun loaded => do
    let plan ← raising (parsePlan planJson)
    return twTemporalToJson (twCheckTemporal plan loaded.domain.view originIso) (planToJson plan))
  | .planWithTemporal json originIso => some (json, fun loaded => do
    match ← raising (← onHeap (twPlan loaded.state loaded.tasks loaded.domain [])) with
    | none => throw (.runtimeError "no_plan")
    | some plan => return twTemporalToJson (twCheckTemporal plan loaded.domain.view originIso) (planToJson plan))
  | .domainCacheClear => none

def domainCacheClear : CallM F String := do
  modify fun pr => { pr with domainCache := .empty }
  return "ok"

/-- The entry point of a call. -/
def run (call : NifCall) : CallM F String :=
  match entry call with
  | some (json, rest) => loaded json >>= rest
  | none => domainCacheClear

/-- The process after the calls, whatever they return or raise. -/
def Process.after (pr : Process F) (calls : List NifCall) : Process F :=
  calls.foldl (fun pr call => ((run call).call pr).2) pr

end Shared
end WeftWarp
