import WeftWarp.Validate

/-! # Accepted documents

What `validate` has checked of a document that it accepts, as facts about the parts of the document. -/

namespace WeftWarp
namespace JsonldLoader

open TwLoader (getArr)

variable {F : Type}

/-! ### Sequences of checks -/

section Checks
variable {ε : Type}

theorem andThen_eq_ok {check : Except ε Unit} {next : Unit → Except ε Unit} :
    (check >>= next) = .ok () ↔ check = .ok () ∧ next () = .ok () := by
  cases check with
  | error e => simp [bind, Except.bind]
  | ok u => simp [bind, Except.bind]

theorem forM_eq_ok {α : Type} {check : α → Except ε Unit} : ∀ {xs : List α},
    xs.forM check = .ok () ↔ ∀ x ∈ xs, check x = .ok ()
  | [] => by simp [List.forM, pure, Except.pure]
  | x :: xs => by
    change (check x >>= fun _ => xs.forM check) = .ok () ↔ _
    rw [andThen_eq_ok, forM_eq_ok, List.forall_mem_cons]

end Checks

/-! ### Arity -/

/-- The call has as many arguments as the index says. -/
def Agrees (index : List (String × Nat)) (c : TwCall F) : Prop := ∀ n, index.lookup c.name = some n → c.args.length = n

variable {name : String}

theorem checkCall_eq_ok {index : List (String × Nat)} {ctx : String} {args : List (TwValue F)} :
    checkCall index ctx (.array (.string name :: args)) = .ok () ↔ Agrees index ⟨name, args⟩ := by
  rw [checkCall, Agrees]
  cases found : index.lookup name with
  | none => simp
  | some expected => by_cases same : args.length = expected <;> simp [same]

/-- The number of parameters that an action or a method declares. -/
def paramCount (defn : TwValue F) : Nat := (getArr defn.asDict "params").length

theorem lookup_nameArityMap {v : TwValue F} (isDict : v.isDict = true) :
    ∀ {defs : Dict F}, defs.lookup name = some v →
    (nameArityMap defs).lookup name = some (paramCount v)
  | (k, w) :: defs, found => by
    rw [List.lookup_cons] at found
    by_cases here : name = k
    · subst here
      simp only [beq_self_eq_true, Option.some.injEq] at found
      subst found
      simp [nameArityMap, isDict, paramCount]
    · simp only [beq_eq_false_iff_ne.mpr here] at found
      have later := lookup_nameArityMap isDict found
      simp only [nameArityMap, List.filter_cons] at later ⊢
      split
      · rw [List.map_cons, List.lookup_cons]
        simpa only [beq_eq_false_iff_ne.mpr here] using later
      · exact later

theorem mem_of_nameArityMap {n : Nat} {defs : Dict F}
    (found : (nameArityMap defs).lookup name = some n) : ∃ v, (name, v) ∈ defs ∧ paramCount v = n := by
  obtain ⟨kv, member, same⟩ := List.mem_map.mp (mem_of_lookup found)
  obtain ⟨rfl, rfl⟩ := Prod.mk.inj same
  exact ⟨kv.2, (List.mem_filter.mp member).1, rfl⟩

variable {doc : Dict F}

theorem checkArity_eq_ok : checkArity doc = .ok () ↔
    (∀ call ∈ getArr doc "todo_list",
      checkCall (arityIndex (members doc "actions") (members doc "methods")) "todo_list" call = .ok ()) ∧
    ∀ kv ∈ members doc "methods", ∀ call ∈ methodSubtasks kv.2,
      checkCall (arityIndex (members doc "actions") (members doc "methods")) ("method " ++ kv.1) call = .ok () := by
  simp only [checkArity, andThen_eq_ok, checkCalls, forM_eq_ok]

/-! ### References -/

/-- The parameters that an action or a method declares. -/
def paramNames (defn : TwValue F) : List String := (getArr defn.asDict "params").filterMap stringOf

theorem scanRefs_eq_ok {texts : List (TwValue F)} {allowed : List String} {ctx : String} :
    scanRefs texts allowed ctx = .ok () ↔ ∀ ref ∈ refsOfList texts, ref ∈ allowed := by
  rw [scanRefs]
  cases found : (refsOfList texts).find? fun ref => !allowed.contains ref with
  | none => simpa using found
  | some ref =>
    have missing := List.find?_some found
    simp only [reduceCtorEq, false_iff, not_forall]
    exact ⟨ref, List.mem_of_find?_eq_some found, by simpa using missing⟩

theorem checkVarRefs_eq_ok : checkVarRefs doc = .ok () ↔
    (∀ a ∈ members doc "actions", ∀ ref ∈ refsOfList (getArr a.2.asDict "body"),
      ref ∈ paramNames a.2 ++ globalVarNames doc ++ bindNames a.2) ∧
    ∀ m ∈ members doc "methods", ∀ ref ∈ refsOfList (methodSubtasks m.2),
      ref ∈ paramNames m.2 ++ globalVarNames doc ++ [] := by
  simp only [checkVarRefs, andThen_eq_ok, checkMemberRefs, forM_eq_ok, scanRefs_eq_ok, paramNames]

section Refs
variable {ref : String} {v : TwValue F}

theorem mem_refsOfList (inV : ref ∈ refsOf v) : ∀ {vs : List (TwValue F)}, v ∈ vs → ref ∈ refsOfList vs
  | w :: vs, mem => by
    rw [refsOfList, List.mem_append]
    rcases List.mem_cons.mp mem with rfl | mem
    · exact .inl inV
    · exact .inr (mem_refsOfList inV mem)

theorem mem_refsOfEntries {kv : String × TwValue F} (inV : ref ∈ refsOf kv.2) :
    ∀ {kvs : Dict F}, kv ∈ kvs → ref ∈ refsOfEntries kvs
  | w :: kvs, mem => by
    rw [refsOfEntries, List.mem_append]
    rcases List.mem_cons.mp mem with rfl | mem
    · exact .inl inV
    · exact .inr (mem_refsOfEntries inV mem)

theorem mem_refsOf_field {w : TwValue F} {key : String} (found : v.asDict.lookup key = some w)
    (inField : ref ∈ refsOf w) : ref ∈ refsOf v := by
  cases v with
  | dict kvs =>
    rw [refsOf]
    exact mem_refsOfEntries inField (mem_of_lookup found)
  | _ => cases found

theorem mem_refsOf_element {w : TwValue F} (mem : w ∈ v.asArray) (inElement : ref ∈ refsOf w) : ref ∈ refsOf v := by
  cases v with
  | array vs =>
    rw [refsOf]
    exact mem_refsOfList inElement mem
  | _ => cases mem

/-- Where a text is expected, the references of a value are those of the text. -/
theorem mem_refsOf_asString (inText : ref ∈ varRefs none v.asString.toList) : ref ∈ refsOf v := by
  cases v with
  | string s => rwa [refsOf]
  | _ => cases inText

end Refs

/-! ### The document -/

variable [CxxMath F]

/-- Every check passes. -/
structure Accepted (doc : Dict F) : Prop where
  schema : ofSchema doc = true
  hasActions : checkHasActions doc = .ok ()
  arity : checkArity doc = .ok ()
  durations : checkActionDurations doc = .ok ()
  refs : checkVarRefs doc = .ok ()

theorem accepted_of_validate {validator : Validator F} (valid : validate validator (.dict doc) = .ok ()) :
    Accepted doc := by
  obtain ⟨schema, rest⟩ := andThen_eq_ok.mp valid
  obtain ⟨hasActions, rest⟩ := andThen_eq_ok.mp rest
  obtain ⟨arity, rest⟩ := andThen_eq_ok.mp rest
  obtain ⟨durations, refs⟩ := andThen_eq_ok.mp rest
  refine ⟨?_, hasActions, arity, durations, refs⟩
  rw [checkJsonSchema] at schema
  split at schema
  · rename_i accepted
    exact validator.shape doc accepted
  · cases schema

end JsonldLoader
end WeftWarp
