import WeftWarp.ReBAC

/-! # Planning states

The state of `tw_state.hpp`. The memo fields of the signature hash stand beside it in `MemoState`; the rest of the model
takes the hash as a function of the variables. -/

namespace WeftWarp

open TwReBAC (TwReBACGraph)

/-- `TwState`. The graph is null until `load_domain` builds one. -/
structure TwState (F : Type) where
  vars : OrderedMap String (TwValue F)
  rebacGraph : Option (TwReBACGraph F)
  rebacFuel : Nat

namespace TwState
variable {F : Type}

def empty : TwState F where
  vars := .empty
  rebacGraph := none
  rebacFuel := 8

def setVar (s : TwState F) (key : String) (val : TwValue F) : TwState F :=
  { s with vars := s.vars.set key val }

def getVar (s : TwState F) (key : String) : TwValue F := (s.vars.find? key).getD .nil

def hasVar (s : TwState F) (key : String) : Bool := (s.vars.find? key).isSome

variable [Cxx F]

/-- `set_nested`. A variable that is not a dictionary is replaced by one. -/
def setNested (s : TwState F) (var : String) (key val : TwValue F) : TwState F :=
  { s with vars := s.vars.set var (.dict (setEntry key.toText val (s.getVar var).asDict)) }

def getNested (s : TwState F) (var : String) (key : TwValue F) : TwValue F :=
  ((s.getVar var).asDict.lookup key.toText).getD .nil

def hasNested (s : TwState F) (var : String) (key : TwValue F) : Bool :=
  ((s.getVar var).asDict.lookup key.toText).isSome

/-! ### Signature hash -/

/-- `mix_str` of `signature_hash`. -/
def mixStr (h : UInt64) (s : String) : UInt64 :=
  let h := s.toList.foldl (fun h c => (h ^^^ UInt64.ofNat c.toNat) * 1099511628211) h
  (h ^^^ 0x9e3779b97f4a7c15) * 1099511628211

/-- `signature_hash`. The variables are mixed in by sorted name. -/
def signatureHash (s : TwState F) : UInt64 :=
  (s.vars.keys.insertionSort (· ≤ ·)).foldl
    (fun h k => (mixStr h k ^^^ (s.getVar k).stableHash) * 1099511628211) 1469598103934665603

end TwState

/-! ### The memo of the hash -/

/-- A `TwState` with its mutable members. A new state has no valid memo. -/
structure MemoState (F : Type) where
  state : TwState F
  sigHashValid : Bool := false
  sigHashCache : UInt64 := 0

namespace MemoState
variable {F : Type} [Cxx F]

def setVar (m : MemoState F) (key : String) (val : TwValue F) : MemoState F :=
  { m with state := m.state.setVar key val, sigHashValid := false }

def setNested (m : MemoState F) (var : String) (key val : TwValue F) : MemoState F :=
  { m with state := m.state.setNested var key val, sigHashValid := false }

/-- `copy`: member by member, the memo included. -/
def copy (m : MemoState F) : MemoState F := m

/-- `signature_hash`: the hash, and the state with the memo that is kept for the next call. -/
def signatureHash (m : MemoState F) : UInt64 × MemoState F :=
  if m.sigHashValid then (m.sigHashCache, m)
  else
    let h := m.state.signatureHash
    (h, { m with sigHashCache := h, sigHashValid := true })

end MemoState
end WeftWarp
