import WeftWarp.Theorems.PlainValues
import WeftWarp.Theorems.Validated

/-! # States without braces

Expressions whose placeholders are bound evaluate to plain values in a plain state, and a body of such expressions
leaves the state plain. -/

namespace WeftWarp

open TwLoader
open JsonldLoader

variable {F : Type} [CxxMath F]

/-! ## States -/

/-- A plain value, or a dictionary of plain values under plain keys. -/
def plainCell : TwValue F → Bool
  | .dict kvs => kvs.all fun kv => plainText kv.1 && plain kv.2
  | v => plain v

/-- Every variable has a plain name and holds plain values. -/
def PlainState (s : TwState F) : Prop := ∀ var v, s.vars.find? var = some v → plainText var = true ∧ plainCell v = true

section States
variable {s : TwState F}

omit [CxxMath F] in
theorem plainCell_entry {v : TwValue F} (isPlain : plainCell v = true) {kv : String × TwValue F} (mem : kv ∈ v.asDict) :
    plainText kv.1 = true ∧ plain kv.2 = true := by
  cases v with
  | dict kvs => simpa using List.all_eq_true.mp isPlain kv mem
  | _ => cases mem

omit [CxxMath F] in
theorem PlainState.getVar (h : PlainState s) (var : String) : plainCell (s.getVar var) = true := by
  rw [TwState.getVar]
  cases found : s.vars.find? var with
  | none => rfl
  | some v => exact (h var v found).2

theorem PlainState.getNested (h : PlainState s) (var : String) (key : TwValue F) :
    plain (s.getNested var key) = true :=
  plain_getD fun _ found => (plainCell_entry (h.getVar var) (mem_of_lookup found)).2

omit [CxxMath F] in
theorem PlainState.setVar (h : PlainState s) {var : String} (plainVar : plainText var = true) {v : TwValue F}
    (plainV : plainCell v = true) : PlainState (s.setVar var v) := by
  intro k w found
  rw [TwState.setVar, OrderedMap.find?_set] at found
  split at found
  · rename_i same
    cases found
    exact ⟨same ▸ plainVar, plainV⟩
  · exact h k w found

theorem PlainState.setNested (h : PlainState s) {var : String} (plainVar : plainText var = true) {key v : TwValue F}
    (plainKey : plainText key.toText = true) (plainV : plain v = true) : PlainState (s.setNested var key v) := by
  refine h.setVar plainVar (List.all_eq_true.mpr fun kv mem => ?_)
  rw [Bool.and_eq_true]
  rcases mem_setEntry mem with rfl | mem
  · exact ⟨plainKey, plainV⟩
  · exact plainCell_entry (h.getVar var) mem

end States

/-! ## Expressions -/

/-- The fields of a node that are no inputs. -/
def besideInputs : List String := ["type", "pointer", "rel", "configuration"]

mutual

/-- Placeholders stand only where evaluation fills them in: in texts that are inputs of nodes or stand alone, and not
    inside of lists. An object is a node. -/
def shaped : TwValue F → Bool
  | .string s => wellBraced none s.toList
  | .array xs => plainList xs
  | .dict kvs => (kvs.lookup "type").isSome && shapedEntries kvs
  | _ => true

/-- Every input is shaped. -/
def shapedEntries : Dict F → Bool
  | [] => true
  | (k, v) :: kvs => (besideInputs.contains k || shaped v) && shapedEntries kvs

end

section Expressions
variable {params : Params F} {s : TwState F}

theorem numeral_isInput (i : Int) : toString i ∉ besideInputs := by
  intro mem
  have letter : ∀ name ∈ besideInputs, (name.toList.any fun c => !c.isDigit && c != '-') = true := by decide
  obtain ⟨c, inside, other⟩ := List.any_eq_true.mp (letter _ mem)
  obtain ⟨notDigit, notSign⟩ : c.isDigit = false ∧ c ≠ '-' := by simpa using other
  rcases char_of_numeral inside with digit | sign
  · rw [notDigit] at digit
    cases digit
  · exact notSign sign

omit [CxxMath F] in
theorem plain_ite {p : Prop} [Decidable p] {v w : TwValue F} (left : plain v = true) (right : plain w = true) :
    plain (if p then v else w) = true := by
  split <;> assumption

theorem plain_evalNode (plainState : PlainState s) {expr vals : Dict F}
    (inputs : ∀ k, k ∉ besideInputs → ∀ v, vals.lookup k = some v → plain v = true) :
    plain (evalNode expr vals params s) = true := by
  have input (k : String) (isInput : k ∉ besideInputs) : plain ((vals.lookup k).getD .nil) = true :=
    plain_getD (inputs k isInput)
  have list {names : List String} (areInputs : ∀ k ∈ names, k ∉ besideInputs) :
      plain (.array (names.map fun k => (vals.lookup k).getD .nil)) = true := by
    rw [plain, plainList_iff]
    intro v mem
    obtain ⟨k, named, rfl⟩ := List.mem_map.mp mem
    exact input k (areInputs k named)
  rw [evalNode]
  -- One branch after the other, as `eval_node` tries the types.
  refine plain_ite rfl (plain_ite ?get (plain_ite ?check (plain_ite (list (by decide)) (plain_ite (list (by decide))
    (plain_ite (plain_floats _) (plain_ite ?select (plain_ite ?switch (plain_ite ?clamp (plain_ite rfl
    (plain_ite rfl ?table))))))))))
  case get =>
    split
    · rfl
    · exact plain_ite rfl (plainState.getNested _ _)
  case check => split <;> rfl
  case select => exact plain_ite (input "a" (by decide)) (input "b" (by decide))
  case switch =>
    split
    · rename_i v found
      exact inputs _ (numeral_isInput _) v found
    · exact input "default" (by decide)
  case clamp =>
    exact plain_ite (input "b" (by decide)) (plain_ite (input "c" (by decide)) (input "a" (by decide)))
  case table =>
    split
    · rename_i node found
      exact keepsPlain_of_mem _ (mem_of_lookup found) _ _ _ _ (input "a" (by decide)) (input "b" (by decide))
        (input "c" (by decide)) (input "d" (by decide))
    · rfl

mutual

theorem plain_evalExpr (renders : ∀ f : F, plainText (Cxx.render f) = true) (plainParams : PlainParams params)
    (plainState : PlainState s) : ∀ {v : TwValue F}, shaped v = true → (∀ ref ∈ refsOf v, Bound params ref) →
    plain (evalExpr params s v) = true
  | .string text, isShaped, bound => by
    rw [refsOf] at bound
    simp only [evalExpr]
    exact plain_resolveParam renders plainParams isShaped bound
  | .dict kvs, isShaped, bound => by
    rw [shaped, Bool.and_eq_true] at isShaped
    rw [refsOf] at bound
    rw [evalExpr, if_pos isShaped.1]
    exact plain_evalNode plainState (plain_evalEntries renders plainParams plainState isShaped.2 bound)
  | .array xs, isShaped, _ => isShaped
  | .nil, _, _ => rfl
  | .bool b, _, _ => rfl
  | .int i, _, _ => rfl
  | .float f, _, _ => rfl

theorem plain_evalEntries (renders : ∀ f : F, plainText (Cxx.render f) = true) (plainParams : PlainParams params)
    (plainState : PlainState s) : ∀ {kvs : Dict F}, shapedEntries kvs = true →
    (∀ ref ∈ refsOfEntries kvs, Bound params ref) → ∀ k, k ∉ besideInputs →
    ∀ v, (evalEntries params s kvs).lookup k = some v → plain v = true
  | [], _, _, k, _, v, found => by cases found
  | (k', w) :: kvs, isShaped, bound, k, isInput, v, found => by
    rw [shapedEntries, Bool.and_eq_true] at isShaped
    rw [refsOfEntries] at bound
    rw [evalEntries, List.lookup_cons] at found
    split at found
    · rename_i same
      cases found
      rw [beq_iff_eq] at same
      subst same
      have isShapedHere : shaped w = true := by simpa [isInput] using isShaped.1
      exact plain_evalExpr renders plainParams plainState isShapedHere
        fun ref mem => bound ref (List.mem_append_left _ mem)
    · exact plain_evalEntries renders plainParams plainState isShaped.2
        (fun ref mem => bound ref (List.mem_append_right _ mem)) k isInput v found

end
end Expressions

/-! ## Parameters -/

section Parameters
variable {params : Params F} {s : TwState F}

omit [CxxMath F] in
theorem PlainParams.set (h : PlainParams params) (name : String) {v : TwValue F} (plainV : plain v = true) :
    PlainParams (params.set name v) := by
  intro k w found
  rw [OrderedMap.find?_set] at found
  split at found
  · cases found
    exact plainV
  · exact h k w found

omit [CxxMath F] in
theorem Bound.set {ref name : String} (h : Bound params ref ∨ ref = name) (v : TwValue F) : Bound (params.set name v) ref := by
  rw [Bound, OrderedMap.find?_set]
  split
  · rfl
  · rename_i other
    exact h.resolve_right other

omit [CxxMath F] in
theorem plainParams_empty : PlainParams (.empty : Params F) := fun _ _ found => nomatch found

omit [CxxMath F] in
theorem plainParams_buildParams {names args : List (TwValue F)} (plainArgs : ∀ a ∈ args, plain a = true) :
    PlainParams (buildParams names args) := by
  have fold : ∀ {pairs : List (TwValue F × TwValue F)} {params : Params F}, PlainParams params →
      (∀ na ∈ pairs, plain na.2 = true) →
      PlainParams (pairs.foldl (fun p na => p.set na.1.asString na.2) params) := by
    intro pairs
    induction pairs with
    | nil => exact fun h _ => h
    | cons na pairs ih =>
      intro params h plainPairs
      obtain ⟨first, rest⟩ := List.forall_mem_cons.mp plainPairs
      exact ih (h.set _ first) rest
  exact fold plainParams_empty fun na mem => plainArgs na.2 (List.of_mem_zip mem).2

omit [CxxMath F] in
/-- A parameter that gets an argument is bound. -/
theorem bound_buildParams {ref : String} {names args : List (TwValue F)} (enough : args.length = names.length)
    (declared : ref ∈ names.filterMap stringOf) : Bound (buildParams names args) ref := by
  have fold : ∀ {names args : List (TwValue F)} {params : Params F}, args.length = names.length →
      Bound params ref ∨ ref ∈ names.filterMap stringOf →
      Bound ((names.zip args).foldl (fun p na => p.set na.1.asString na.2) params) ref := by
    intro names
    induction names with
    | nil => exact fun _ bound => bound.resolve_right (List.not_mem_nil)
    | cons name names ih =>
      intro args params enough bound
      cases args with
      | nil => cases enough
      | cons arg args =>
        refine ih (Nat.succ.inj enough) ?_
        rcases bound with bound | declared
        · exact .inl (.set (.inl bound) arg)
        · obtain ⟨p, mem, isName⟩ := List.mem_filterMap.mp declared
          rcases List.mem_cons.mp mem with rfl | mem
          · cases p with
            | string text =>
              cases isName
              exact .inl (.set (.inr rfl) arg)
            | _ => cases isName
          · exact .inr (List.mem_filterMap.mpr ⟨p, mem, isName⟩)
  exact fold enough (.inr declared)

/-- The bind reads a variable, whatever is filled in. -/
def Effective (bind : TwValue F) : Prop :=
  ∃ ptr, bind.asDict.lookup "pointer" = some ptr ∧ ∀ params : Params F, (parsePointer ptr.asString params).1 ≠ ""

theorem plainParams_runBind (plainState : PlainState s) (h : PlainParams params) (bind : TwValue F) :
    PlainParams (runBind s params bind) := by
  rw [runBind]
  split
  · dsimp only
    split
    · exact h
    · exact h.set _ (plainState.getNested _ _)
  · exact h

theorem plainParams_runBinds (plainState : PlainState s) (h : PlainParams params) (binds : List (TwValue F)) :
    PlainParams (runBinds binds params s) := by
  rw [runBinds]
  induction binds generalizing params with
  | nil => exact h
  | cons bind binds ih => exact ih (plainParams_runBind plainState h bind)

theorem bound_runBind {ref : String} {bind : TwValue F}
    (bound : Bound params ref ∨ Effective bind ∧ (bind.asDict.lookup "name").bind stringOf = some ref) :
    Bound (runBind s params bind) ref := by
  rcases bound with bound | ⟨⟨ptr, found, reads⟩, isName⟩
  · rw [runBind]
    split
    · dsimp only
      split
      · exact bound
      · exact .set (.inl bound) _
    · exact bound
  · obtain ⟨name, named, isText⟩ := Option.bind_eq_some_iff.mp isName
    cases name with
    | string text =>
      cases isText
      rw [runBind, named, found]
      dsimp only
      rw [if_neg (reads params)]
      exact .set (.inr rfl) _
    | _ => cases isText

/-- What was bound stays bound, and an effective bind binds its name. -/
theorem bound_runBinds {ref : String} {binds : List (TwValue F)}
    (bound : Bound params ref ∨ (∀ bind ∈ binds, Effective bind) ∧ ref ∈ entryNames binds) :
    Bound (runBinds binds params s) ref := by
  rw [runBinds]
  induction binds generalizing params with
  | nil => exact bound.resolve_right fun h => nomatch h.2
  | cons bind binds ih =>
    refine ih ?_
    rcases bound with bound | ⟨effective, named⟩
    · exact .inl (bound_runBind (.inl bound))
    · obtain ⟨first, rest⟩ := List.forall_mem_cons.mp effective
      obtain ⟨b, mem, isName⟩ := List.mem_filterMap.mp named
      rcases List.mem_cons.mp mem with rfl | mem
      · exact .inl (bound_runBind (.inr ⟨first, isName⟩))
      · exact .inr ⟨rest, List.mem_filterMap.mpr ⟨b, mem, isName⟩⟩

end Parameters

/-! ## Actions -/

/-- What a step of a body writes, and where, can be filled in. -/
def shapedStep (step : TwValue F) : Bool :=
  ((step.asDict.lookup "pointer/set").all fun ptr => wellBraced none ptr.asString.toList) &&
  (step.asDict.lookup "value").all shaped

section Actions
variable (renders : ∀ f : F, plainText (Cxx.render f) = true) {params : Params F} {s s' : TwState F}

include renders

theorem plainState_runStep (plainParams : PlainParams params) {step : TwValue F} (isShaped : shapedStep step = true)
    (bound : ∀ ref ∈ refsOf step, Bound params ref) (ran : runStep params s step = some s') (h : PlainState s) :
    PlainState s' := by
  rw [runStep] at ran
  split at ran
  · split at ran
    · cases ran
      exact h
    · cases ran
  · rename_i ptr _ found
    dsimp only at ran
    split at ran
    · cases ran
    · obtain ⟨expr, value, rfl⟩ := Option.map_eq_some_iff.mp ran
      simp only [shapedStep, found, value, Option.all_some, Bool.and_eq_true] at isShaped
      have place := plain_parsePointer renders plainParams isShaped.1 fun ref mem =>
        bound ref (mem_refsOf_field found (mem_refsOf_asString mem))
      have written := plain_evalExpr renders plainParams h isShaped.2 fun ref mem =>
        bound ref (mem_refsOf_field value mem)
      exact h.setNested place.1 (plainText_toText renders place.2) written
  · cases ran

theorem plainState_runBody (plainParams : PlainParams params) {body : List (TwValue F)}
    (isShaped : ∀ step ∈ body, shapedStep step = true) (bound : ∀ ref ∈ refsOfList body, Bound params ref)
    (ran : runBody params body s = some s') (h : PlainState s) : PlainState s' := by
  induction body generalizing s with
  | nil =>
    cases ran
    exact h
  | cons step body ih =>
    obtain ⟨mid, stepped, rest⟩ := Option.bind_eq_some_iff.mp ran
    obtain ⟨first, later⟩ := List.forall_mem_cons.mp isShaped
    rw [refsOfList] at bound
    have boundFirst : ∀ ref ∈ refsOf step, Bound params ref := fun ref mem => bound ref (List.mem_append_left _ mem)
    exact ih later (fun ref mem => bound ref (List.mem_append_right _ mem)) rest
      (plainState_runStep renders plainParams first boundFirst stepped h)

end Actions
end WeftWarp
