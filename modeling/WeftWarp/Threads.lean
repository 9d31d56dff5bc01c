import WeftWarp.Process

/-! # Calls at the same time

The schedulers of the virtual machine run native functions on several threads. A call advances in pieces here, and the
pieces of different calls may follow each other in any order: what a call does while it holds the lock of the cache is a
piece, and so is what it does from there to the next lock or to its end. Outside the lock a call reads and writes
only through its own pointers (`Theorems/Footprints.lean`), so that nothing finer can be told apart. -/

namespace WeftWarp
namespace Shared

open Nif (NifError NifCall)

variable {F : Type} [CxxMath F]

/-- Where a call stands: before the lookup, behind a lookup that has found nothing, behind `load_json`, behind
    `emplace`, with what `load_cached` has returned, or at its end. -/
inductive Stage (F : Type) [CxxMath F] where
  | called
  | missed
  | parsed (loaded : Option (Loaded F))
  | inserted (loaded : Option (Loaded F))
  | opened (loaded : Option (Loaded F))
  | ended (result : Except NifError String)

/-- `load_cached` returns with a copy of the state. -/
def copied (pr : Process F) : Option (Loaded F) → Stage F × Process F
  | none => (.opened none, pr)
  | some loaded =>
    let (state, heap) := (copy loaded.state).run pr.heap
    (.opened (some { loaded with state }), { pr with heap })

/-- `emplace` leaves a document that is there already. -/
def emplace (pr : Process F) (json : String) (loaded : Option (Loaded F)) : Process F :=
  match pr.domainCache.find? json with
  | some _ => pr
  | none => { pr with domainCache := pr.domainCache.set json loaded }

/-- The next piece of a call with a document. -/
def advance (json : String) (rest : Loaded F → CallM F String) (pr : Process F) : Stage F → Stage F × Process F
  | .called =>
    match pr.domainCache.find? json with
    | some loaded => copied pr loaded
    | none => (.missed, pr)
  | .missed =>
    let (result, heap) := (loadJson json).run pr.heap
    match result with
    | .error e => (.ended (.error (.thrown e)), { pr with heap })
    | .ok loaded => (.parsed loaded, { pr with heap })
  | .parsed loaded => (.inserted loaded, emplace pr json loaded)
  | .inserted loaded => copied pr loaded
  | .opened none => (.ended (.error (.runtimeError "failed_to_load_domain")), pr)
  | .opened (some loaded) =>
    let (result, pr) := (rest loaded).call pr
    (.ended result, pr)
  | .ended result => (.ended result, pr)

/-- The process with the calls that have been made so far. -/
structure System (F : Type) [CxxMath F] where
  process : Process F
  calls : List (NifCall × Stage F)

/-- The process before the first call. -/
def System.fresh : System F := ⟨.fresh, []⟩

/-- A new call, or the next piece of the call with this number. -/
inductive Piece where
  | start (call : NifCall)
  | advance (i : Nat)

/-- A new call comes in, or one that is there advances. -/
inductive Steps : System F → Option Piece → System F → Prop where
  | start {sys : System F} (call : NifCall) :
      Steps sys (some (.start call)) { sys with calls := sys.calls ++ [(call, .called)] }
  | clear {sys : System F} {i : Nat} (at_ : sys.calls[i]? = some (.domainCacheClear, .called)) :
      Steps sys (some (.advance i))
        ⟨(domainCacheClear.call sys.process).2,
          sys.calls.set i (.domainCacheClear, .ended (domainCacheClear.call sys.process).1)⟩
  | advance {sys : System F} {i : Nat} {call : NifCall} {stage : Stage F} {json : String}
      {rest : Loaded F → CallM F String} (at_ : sys.calls[i]? = some (call, stage))
      (document : entry call = some (json, rest)) :
      Steps sys (some (.advance i))
        ⟨(advance json rest sys.process stage).2, sys.calls.set i (call, (advance json rest sys.process stage).1)⟩

end Shared
end WeftWarp
