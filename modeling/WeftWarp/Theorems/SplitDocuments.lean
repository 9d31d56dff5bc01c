import WeftWarp.Theorems.Capabilities
import WeftWarp.Theorems.Documents

/-! # Split documents

Merging a domain and a problem before or after they are loaded. The two ways agree exactly if they load the same pairs
and nothing of the domain is lost in one of them only. -/

namespace WeftWarp

open TwLoader
open JsonldLoader (members)

variable {F : Type}

/-! ## Variables -/

section Load
variable [CxxMath F]

/-- The entry of `variables` is one for `k`. -/
def Names (varDef : TwValue F) (k : String) : Prop :=
  ∃ name, varDef.asDict.lookup "name" = some name ∧ name.asString = k

variable {k : String} {s u : TwState F}

variable {α : Type}

/-- The value that entries of `variables` give to `k`. -/
def declaredValue (varDefs : List (TwValue F)) (k : String) : Option (TwValue F) :=
  (varDefs.foldl loadVariable .empty).vars.find? k

/-- What the capabilities make of the value of `k`. -/
def capsOver (caps : TwValue F) (k : String) (v : Option (TwValue F)) : Option (TwValue F) :=
  (entityCaps ((caps.asDict.lookup "entities").getD .nil).asDict).foldl
    (fun v ec => if k = capVar ec then some (.dict (setEntry ec.1 (.bool true) (v.getD .nil).asDict)) else v) v

/-- The capabilities of a document. -/
def capsOf (doc : Dict F) : TwValue F := (doc.lookup "capabilities").getD .nil

end Load

/-! ## The merged document -/

/-- A step of the merge that writes one known key at most. -/
structure WritesOnly (key : String) (before after : Dict F) : Prop where
  others : ∀ k, k ≠ key → after.lookup k = before.lookup k
  known : Known after ↔ Known before

theorem WritesOnly.refl (key : String) (doc : Dict F) : WritesOnly key doc doc :=
  ⟨fun _ _ => rfl, Iff.rfl⟩

variable {key : String} {after before merged : Dict F} {k : String}

theorem WritesOnly.setEntry (isKnown : key ∈ kKnownKeys) (v : TwValue F) (doc : Dict F) :
    WritesOnly key doc (setEntry key v doc) := by
  refine ⟨fun k other => lookup_setEntry_ne v other doc, ?_⟩
  rw [known_iff, known_iff, map_fst_setEntry]
  split
  · exact Iff.rfl
  · simp only [List.mem_append, List.mem_singleton]
    exact ⟨fun known k mem => known k (.inl mem), fun known k mem => mem.elim (known k) fun same => same ▸ isKnown⟩

variable {domain problem : Dict F}

/-- The variables of the merged document. -/
def mergedVariables [DecidableEq F] (domain problem : Dict F) : List (TwValue F) :=
  let probVars := getArr problem "variables"
  if ((problem.lookup "variables").getD .nil).isArray then
    (Cli.wrapped domain "variables").filter (fun old => probVars.all fun new => Cli.nameOf new ≠ Cli.nameOf old) ++ probVars
  else getArr domain "variables"

section Merged
variable [DecidableEq F] {domain problem merged : Dict F}

end Merged

/-! ## Documents that fit together -/

section Same
variable [CxxMath F]

/-- Two loads with the same content. -/
structure SameParts (l m : TwLoaded F) : Prop where
  vars : ∀ k, l.state.vars.find? k = m.state.vars.find? k
  graph : l.state.rebacGraph = m.state.rebacGraph
  actions : ∀ k, l.domain.actions.find? k = m.domain.actions.find? k
  methods : ∀ k, l.domain.taskMethods.find? k = m.domain.taskMethods.find? k
  durations : ∀ k, l.domain.actionDurations.find? k = m.domain.actionDurations.find? k
  tasks : l.tasks = m.tasks

/-- Both fail to load, or both load with the same content. -/
def SameLoad : Option (TwLoaded F) → Option (TwLoaded F) → Prop
  | none, none => True
  | some l, some m => SameParts l m
  | _, _ => False

variable {l m : Option (TwLoaded F)} {varDef : TwValue F}

/-- The problem has an entry for the variable. -/
def Declares (problem : Dict F) (k : String) : Prop :=
  ∃ varDef ∈ getArr problem "variables", Names varDef k

/-- A variable that only entries of `variables` write, and only such with a string for its name. -/
def Ordinary (domain problem : Dict F) (k : String) : Prop :=
  k ≠ "" ∧ k ∉ capVars (capsOf domain) ∧ k ∉ capVars (capsOf problem)

variable [DecidableEq F]

/-- Nothing of the domain is lost in one way of merging only. -/
structure Fits (domain problem : Dict F) : Prop where
  /-- A variable that the problem declares has a value there, or none in the domain. -/
  declared : ∀ k, Ordinary domain problem k → Declares problem k → declaredValue (getArr problem "variables") k = none →
    declaredValue (getArr domain "variables") k = none
  /-- Next to a list of the problem, the domain has a list as well, or an object that gives no other value. -/
  listed : ∀ k, Ordinary domain problem k → ¬Declares problem k →
    ∀ probVars, problem.lookup "variables" = some (.array probVars) →
      declaredValue (Cli.wrapped domain "variables") k = declaredValue (getArr domain "variables") k
  /-- For the variables of capabilities it comes to the same which document's are written. -/
  capabilities : ∀ k, ¬Ordinary domain problem k →
    capsOver (capsOf domain) k (declaredValue (mergedVariables domain problem) k) =
      (capsOver (capsOf problem) k (declaredValue (getArr problem "variables") k)).or
        (capsOver (capsOf domain) k (declaredValue (getArr domain "variables") k))
  /-- An action or a method of the problem can take the place of that of the domain. -/
  actions : ∀ kv ∈ members problem "actions",
    kv.2.isDict = true ∨ ((members domain "actions").lookup kv.1).any TwValue.isDict = false
  methods : ∀ kv ∈ members problem "methods",
    isGroup kv.2 = true ∨ ((members domain "methods").lookup kv.1).any isGroup = false
  /-- An action of the problem has the duration that the domain has for it. -/
  durations : ∀ kv ∈ members problem "actions",
    durationOf kv.2 = ((members domain "actions").lookup kv.1).bind durationOf

variable {domain problem merged : Dict F} {k : String} {α β : Type}

variable {f : α → Option β}

omit [CxxMath F] [DecidableEq F] in
theorem SameLoad.durations (same : SameLoad l m) (k : String) :
    l.bind (fun l => l.domain.actionDurations.find? k) = m.bind fun m => m.domain.actionDurations.find? k := by
  cases l <;> cases m
  · rfl
  · exact same.elim
  · exact same.elim
  · exact SameParts.durations same k

end Same

end WeftWarp
