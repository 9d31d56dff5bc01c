import WeftWarp.Theorems.UnreadVariables

/-! # Adding capabilities to a document

Capabilities write the variables `_cap_<cap>` and a graph. Where the decompositions come to neither, a document plans
alike without them, unless a goal check changes: a graph with edges makes every goal a relation check. -/

namespace WeftWarp

open TwLoader
open TwReBAC (TwReBACGraph)

variable {F : Type} [CxxMath F]

/-- The entities with each of their capabilities. -/
def entityCaps (entities : Dict F) : Dict F :=
  entities.flatMap fun ep => ep.2.asArray.map fun cap => (ep.1, cap)

/-- The variable of an entity and its capability. -/
def capVar (ec : String × TwValue F) : String := "_cap_" ++ ec.2.asString

/-- The variables that capabilities write. -/
def capVars (caps : TwValue F) : List String :=
  (entityCaps ((caps.asDict.lookup "entities").getD .nil).asDict).map capVar

variable {caps : TwValue F} {s : TwState F}

variable {k : String} {n : Nat}

/-- A state of a document without capabilities. -/
structure Plain (caps : TwValue F) (n : Nat) (s : TwState F) : Prop where
  behind : n ≤ s.vars.entries.length
  graph : s.rebacGraph = some .empty
  fresh : ∀ name ∈ capVars caps, name ∉ s.vars.keys

theorem Plain.setNested (h : Plain caps n s) {var : String} (other : var ∉ capVars caps) (key val : TwValue F) :
    Plain caps n (s.setNested var key val) where
  behind := by
    have length := congrArg List.length (map_fst_setEntry var (.dict (setEntry key.toText val (s.getVar var).asDict))
      s.vars.entries)
    have behind := h.behind
    rw [List.length_map] at length
    rw [TwState.setNested, OrderedMap.entries_set, length]
    split <;> simp <;> omega
  graph := h.graph
  fresh name member held := by
    rcases OrderedMap.mem_keys_set.mp held with held | rfl
    · exact h.fresh name member held
    · exact other member

theorem keys_loadVariable {varDef : TwValue F} (member : k ∈ (loadVariable s varDef).vars.keys) :
    k ∈ s.vars.keys ∨ ∃ name, varDef.asDict.lookup "name" = some name ∧ k = name.asString := by
  have writes (name : String) (init : Dict F) (s : TwState F)
      (member : k ∈ (init.foldl (fun s kv => s.setNested name (.string kv.1) kv.2) s).vars.keys) :
      k ∈ s.vars.keys ∨ k = name := by
    induction init generalizing s with
    | nil => exact .inl member
    | cons kv init ih =>
      rcases ih _ member with member | same
      · exact OrderedMap.mem_keys_set.mp member
      · exact .inr same
  rw [loadVariable] at member
  cases named : varDef.asDict.lookup "name" with
  | none =>
    simp only [named] at member
    exact .inl member
  | some name =>
    simp only [named] at member
    have written : k ∈ s.vars.keys ∨ k = name.asString := by
      split at member
      · rename_i same _
        cases same
        exact writes _ _ _ member
      · rename_i same _
        cases same
        exact OrderedMap.mem_keys_set.mp member
      · exact .inl member
    exact written.imp_right fun same => ⟨name, rfl, same⟩

theorem keys_loadVariables : ∀ {vars : List (TwValue F)} {s : TwState F},
    k ∈ (vars.foldl loadVariable s).vars.keys →
    k ∈ s.vars.keys ∨ ∃ var ∈ vars, ∃ name, var.asDict.lookup "name" = some name ∧ k = name.asString
  | [], _, member => .inl member
  | var :: vars, s, member => by
    rw [List.foldl_cons] at member
    rcases keys_loadVariables member with member | ⟨later, hlater, named⟩
    · exact (keys_loadVariable member).imp_right fun named => ⟨var, List.mem_cons_self, named⟩
    · exact .inr ⟨later, List.mem_cons_of_mem var hlater, named⟩

section Load
variable {doc : Dict F} {caps : TwValue F}

/-- The state of the variables, without capabilities. -/
def loadVariables (doc : Dict F) : TwState F := (getArr doc "variables").foldl loadVariable .empty

/-- The document has no capabilities of its own, declares no variable that `caps` write, and nothing that a decomposition
    of its tasks invokes reads or writes one, checks a relation or draws a random number. -/
structure Untouched (caps : TwValue F) (doc : Dict F) : Prop where
  plain : doc.lookup "capabilities" = none
  vars : ∀ var ∈ getArr doc "variables", ∀ name, var.asDict.lookup "name" = some name → name.asString ∉ capVars caps
  invoked : ∀ {l q y inv}, loadDomain (.dict doc) = some l → Run (Step l.domain) (l.state, l.tasks) q y →
    Invokes l.domain y inv → InvocationAvoids (capVars caps) doc y.1 inv

theorem Untouched.fresh (h : Untouched caps doc) : ∀ name ∈ capVars caps, name ∉ (loadVariables doc).vars.keys := by
  intro name member held
  rcases keys_loadVariables held with held | ⟨var, hvar, named, found, rfl⟩
  · cases held
  · exact h.vars var hvar named found member

end Load

/-! ### A rover and a drone -/

end WeftWarp
