import WeftWarp.SplitDocuments
import WeftWarp.Validate
import WeftWarp.Theorems.LoadedDomain
import WeftWarp.Theorems.Values

/-! # Documents

A document is a JSON object: no key occurs twice in it. Each entry of `actions` and `methods` then loads on its own,
and what is loaded under a name is what the entry of that name gives. -/

namespace WeftWarp

open TwLoader
open JsonldLoader (members)

variable {F : Type}

/-! ## JSON objects -/

/-- An object as it is read, without a key twice. -/
structure JsonObject (F : Type) where
  entries : Dict F
  unique : UniqueKeys (.dict entries)

theorem JsonObject.nodup_members (object : JsonObject F) (key : String) :
    ((members object.entries key).map Prod.fst).Nodup := by
  unfold members
  cases found : object.entries.lookup key with
  | none => exact List.nodup_nil
  | some v =>
    have unique := uniqueKeys_of_mem object.unique.2 (mem_of_lookup found)
    cases v with
    | dict kvs => exact unique.1
    | _ => exact List.nodup_nil

/-! ## What entries load -/

section Load
variable [CxxMath F]

/-- The action of an entry of `actions`. -/
def actionOf (v : TwValue F) : Option (TwActionFn F) := if v.isDict then some (buildAction v.asDict) else none

/-- The duration of an entry of `actions`. -/
def durationOf (v : TwValue F) : Option String :=
  match v.asDict.lookup "duration" with
  | some (.string dur) => some dur
  | _ => none

/-- The methods of an entry of `methods`. -/
def methodsOf (v : TwValue F) : Option (List (TwMethodFn F)) :=
  match v.asDict.lookup "scan", v.asDict.lookup "alternatives" with
  | some (.dict scan), _ => some [buildScanMethod scan]
  | _, some (.array alts) =>
    some ((alts.filter TwValue.isDict).map fun alt => buildMethodAlt (getArr v.asDict "params") alt.asDict)
  | _, _ => none

omit [CxxMath F] in
theorem asDict_of_not_isDict {v : TwValue F} (notDict : ¬v.isDict = true) : v.asDict = [] := by
  cases v with
  | dict kvs => exact absurd (show TwValue.isDict (.dict kvs) = true from rfl) notDict
  | _ => rfl

theorem actions_loadAction (d : TwDomain F) (np : String × TwValue F) :
    (loadAction d np).actions = (actionOf np.2).elim d.actions (d.actions.set np.1) := by
  rw [loadAction, actionOf]
  split <;> rfl

theorem taskMethods_loadMethod (d : TwDomain F) (np : String × TwValue F) :
    (loadMethod d np).taskMethods = (methodsOf np.2).elim d.taskMethods (d.taskMethods.set np.1) := by
  rw [methodsOf, loadMethod]
  split
  · cases np.2.asDict.lookup "scan" with
    | none =>
      cases np.2.asDict.lookup "alternatives" with
      | none => rfl
      | some alts => cases alts <;> rfl
    | some scan =>
      cases scan with
      | dict scan => rfl
      | _ =>
        cases np.2.asDict.lookup "alternatives" with
        | none => rfl
        | some alts => cases alts <;> rfl
  · rename_i notDict
    simp [asDict_of_not_isDict notDict]

/-- The entry of `methods` is a scan or has alternatives. -/
def isGroup (v : TwValue F) : Bool :=
  ((v.asDict.lookup "scan").getD .nil).isDict || ((v.asDict.lookup "alternatives").getD .nil).isArray

theorem actionOf_eq_none {v : TwValue F} : actionOf v = none ↔ v.isDict = false := by
  rw [actionOf]
  cases v.isDict <;> simp

section Field
variable {β : Type} {field : TwDomain F → OrderedMap String β} {f : TwValue F → Option β}
  {step : TwDomain F → String × TwValue F → TwDomain F}

omit [CxxMath F] in
/-- A field of the domain that each entry writes at its own key. -/
theorem foldl_eq_writeAll (one : ∀ d np, field (step d np) = (f np.2).elim (field d) ((field d).set np.1))
    (entries : Dict F) (d : TwDomain F) :
    field (entries.foldl step d) = OrderedMap.writeAll f entries (field d) := by
  induction entries generalizing d with
  | nil => rfl
  | cons np entries ih =>
    rw [List.foldl_cons, ih, one]
    rfl

omit [CxxMath F] in
theorem find?_foldl (one : ∀ d np, field (step d np) = (f np.2).elim (field d) ((field d).set np.1))
    {entries : Dict F} (unique : (entries.map Prod.fst).Nodup) (d : TwDomain F) (k : String) :
    (field (entries.foldl step d)).find? k = ((entries.lookup k).bind f).or ((field d).find? k) := by
  rw [foldl_eq_writeAll one, OrderedMap.find?_writeAll f k _ unique]

end Field

variable {doc : Dict F}

theorem find?_actions (unique : ((members doc "actions").map Prod.fst).Nodup) (k : String) :
    (loadCallables doc).actions.find? k = ((members doc "actions").lookup k).bind actionOf := by
  rw [loadCallables, actions_loadMethods]
  exact (find?_foldl actions_loadAction unique _ k).trans (Option.or_none)

theorem find?_taskMethods (unique : ((members doc "methods").map Prod.fst).Nodup) (k : String) :
    (loadCallables doc).taskMethods.find? k = ((members doc "methods").lookup k).bind methodsOf := by
  rw [loadCallables]
  refine (find?_foldl taskMethods_loadMethod unique _ k).trans ?_
  rw [taskMethods_loadActions]
  exact Option.or_none

omit [CxxMath F] in
theorem mem_of_mapM {α β : Type} {f : α → Option β} : ∀ {l : List α} {bs : List β}, l.mapM f = some bs →
    ∀ b ∈ bs, ∃ a ∈ l, f a = some b
  | [], bs, made, b, mem => by
    cases made
    cases mem
  | a :: l, bs, made, b, mem => by
    rw [List.mapM_cons] at made
    simp only [Option.bind_eq_bind, Option.pure_def, Option.bind_eq_some_iff] at made
    obtain ⟨head, first, tail, rest, all⟩ := made
    cases all
    rcases List.mem_cons.mp mem with rfl | mem
    · exact ⟨a, List.mem_cons_self, first⟩
    · obtain ⟨a', inside, made⟩ := mem_of_mapM rest b mem
      exact ⟨a', List.mem_cons_of_mem a inside, made⟩

/-- Every key is one that `load_domain` knows. -/
def Known (doc : Dict F) : Prop := ∀ kv ∈ doc, kv.1 ∈ kKnownKeys

omit [CxxMath F] in
theorem known_iff {doc : Dict F} : Known doc ↔ ∀ k ∈ doc.map Prod.fst, k ∈ kKnownKeys := by
  simp [Known]

end Load
end WeftWarp
