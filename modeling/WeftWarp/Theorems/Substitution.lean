import WeftWarp.Theorems.CallArity
import WeftWarp.Theorems.PlainStates
import WeftWarp.Theorems.UnreadVariables

/-! # Substitution

Where every placeholder of a document names something that planning binds, no task, no plan and no state that planning
meets has a placeholder left. What `validate` leaves open for that is listed by `FillsPlaceholders`. -/

namespace WeftWarp

open TwLoader
open JsonldLoader

variable {F : Type} [CxxMath F]

/-! ## Placeholders that are left -/

mutual

/-- The placeholders in the texts and the keys of a value. -/
def tokensOf : TwValue F → List String
  | .string s => varRefs none s.toList
  | .array xs => tokensOfList xs
  | .dict kvs => tokensOfEntries kvs
  | _ => []

/-- The placeholders of values. -/
def tokensOfList : List (TwValue F) → List String
  | [] => []
  | x :: xs => tokensOf x ++ tokensOfList xs

/-- The placeholders of entries. -/
def tokensOfEntries : Dict F → List String
  | [] => []
  | (k, v) :: kvs => varRefs none k.toList ++ tokensOf v ++ tokensOfEntries kvs

end

/-- The call has no placeholder left. -/
def TwCall.Substituted (c : TwCall F) : Prop := varRefs none c.name.toList = [] ∧ ∀ a ∈ c.args, tokensOf a = []

/-- The state has no placeholder left in the name or in the value of a variable. -/
def TwState.Substituted (s : TwState F) : Prop :=
  ∀ var v, s.vars.find? var = some v → varRefs none var.toList = [] ∧ tokensOf v = []

section Tokens

omit [CxxMath F]

theorem varRefs_of_noOpen {cs : List Char} (noOpen : '\x7b' ∉ cs) : varRefs none cs = [] := by
  induction cs with
  | nil => rfl
  | cons c cs ih =>
    obtain ⟨notHere, notLater⟩ := not_or.mp (mt List.mem_cons.mpr noOpen)
    rw [varRefs, if_neg (Ne.symm notHere)]
    split <;> exact ih notLater

theorem noOpen_of_plain {s : String} (isPlain : plainText s = true) : '\x7b' ∉ s.toList :=
  fun mem => absurd (plainChars_iff.mp isPlain _ mem) (by decide)

mutual

theorem tokensOf_plain : ∀ {v : TwValue F}, plain v = true → tokensOf v = []
  | .string s, isPlain => varRefs_of_noOpen (noOpen_of_plain isPlain)
  | .array xs, isPlain => tokensOf_plainList isPlain
  | .dict kvs, isPlain => by cases isPlain
  | .nil, _ => rfl
  | .bool b, _ => rfl
  | .int i, _ => rfl
  | .float f, _ => rfl

theorem tokensOf_plainList : ∀ {xs : List (TwValue F)}, plainList xs = true → tokensOfList xs = []
  | [], _ => rfl
  | x :: xs, isPlain => by
    rw [plainList, Bool.and_eq_true] at isPlain
    rw [tokensOfList, tokensOf_plain isPlain.1, tokensOf_plainList isPlain.2, List.nil_append]

end

theorem tokensOf_plainCell {v : TwValue F} (isPlain : plainCell v = true) : tokensOf v = [] := by
  cases v with
  | dict kvs =>
    rw [tokensOf]
    rw [plainCell] at isPlain
    induction kvs with
    | nil => rfl
    | cons kv kvs ih =>
      obtain ⟨k, v⟩ := kv
      simp only [List.all_cons, Bool.and_eq_true] at isPlain
      rw [tokensOfEntries, varRefs_of_noOpen (noOpen_of_plain isPlain.1.1), tokensOf_plain isPlain.1.2, ih isPlain.2,
        List.nil_append, List.nil_append]
  | _ => exact tokensOf_plain isPlain

theorem PlainState.substituted {s : TwState F} (h : PlainState s) : s.Substituted := fun var v found =>
  ⟨varRefs_of_noOpen (noOpen_of_plain (h var v found).1), tokensOf_plainCell (h var v found).2⟩

end Tokens

/-! ## The conditions -/

mutual

/-- No text and no key of the value has a brace. -/
def braceFree : TwValue F → Bool
  | .string s => plainText s
  | .array xs => braceFreeList xs
  | .dict kvs => braceFreeEntries kvs
  | _ => true

/-- No brace in the values. -/
def braceFreeList : List (TwValue F) → Bool
  | [] => true
  | x :: xs => braceFree x && braceFreeList xs

/-- No brace in the entries. -/
def braceFreeEntries : Dict F → Bool
  | [] => true
  | (k, v) :: kvs => plainText k && braceFree v && braceFreeEntries kvs

end

/-- Braces occur only inside the bodies and binds of actions and the alternatives and scans of methods. -/
structure BracesInside (doc : Dict F) : Prop where
  fields : ∀ kv ∈ doc, kv.1 ∉ ["actions", "methods"] → braceFree kv.2 = true
  actions : ∀ a ∈ members doc "actions", plainText a.1 = true ∧
    ∀ field ∈ a.2.asDict, field.1 ∉ ["body", "bind"] → braceFree field.2 = true
  methods : ∀ m ∈ members doc "methods", plainText m.1 = true ∧
    ∀ field ∈ m.2.asDict, field.1 ∉ ["alternatives", "scan"] → braceFree field.2 = true

/-- An argument of a subtask: a text that is filled in, or a plain value. -/
def shapedArg : TwValue F → Bool
  | .string s => wellBraced none s.toList
  | v => plain v

/-- The branches of a scan. -/
def scanBranches (m : TwValue F) : List (TwValue F) := getArr ((m.asDict.lookup "scan").getD .nil).asDict "branches"

/-- The subtasks of a scan behind its last key. -/
def scanDone (m : TwValue F) : List (TwValue F) := getArr ((m.asDict.lookup "scan").getD .nil).asDict "done_subtasks"

/-- Every brace belongs to a placeholder that stands where it is filled in and names what is bound there, and no
    object comes in as a value. -/
structure FillsPlaceholders (doc : Dict F) : Prop where
  /-- No global variable is referred to: planning does not bind them. -/
  actionGlobals : ∀ a ∈ members doc "actions", ∀ ref ∈ refsOfList (getArr a.2.asDict "body"),
    ref ∈ globalVarNames doc → ref ∈ paramNames a.2 ++ bindNames a.2
  methodGlobals : ∀ m ∈ members doc "methods", ∀ ref ∈ refsOfList (methodSubtasks m.2),
    ref ∈ globalVarNames doc → ref ∈ paramNames m.2
  bodies : ∀ a ∈ members doc "actions", ∀ step ∈ getArr a.2.asDict "body", shapedStep step = true
  binds : ∀ a ∈ members doc "actions", ∀ bind ∈ getArr a.2.asDict "bind", Effective bind
  subtasks : ∀ m ∈ members doc "methods", ∀ call ∈ methodSubtasks m.2 ++ scanSubtasks m.2,
    ∀ arg ∈ call.asArray.tail, shapedArg arg = true
  /-- The references of a scan, which the validator does not look at. -/
  branchRefs : ∀ m ∈ members doc "methods", ∀ br ∈ scanBranches m.2,
    ∀ ref ∈ refsOfList (getArr br.asDict "subtasks"), ref ∈ "_key" :: bindNames br
  branchBinds : ∀ m ∈ members doc "methods", ∀ br ∈ scanBranches m.2, ∀ bind ∈ getArr br.asDict "bind", Effective bind
  doneRefs : ∀ m ∈ members doc "methods", refsOfList (scanDone m.2) = []
  recurseNames : ∀ m ∈ members doc "methods", '\x7b' ∉ (scanRecurse m.2).toList
  /-- The list of tasks brings no objects. -/
  todoArgs : ∀ call ∈ getArr doc "todo_list", ∀ arg ∈ call.asArray.tail, plain arg = true
  goalValues : ∀ def' ∈ getArr doc "todo_list", ∀ t, loadTask def' = some t → ∀ b ∈ t.bindings, plain b.desired = true

/-! ## Tasks -/

/-- The key and the value have no placeholder. -/
structure PlainBinding (b : TwGoalBinding F) : Prop where
  key : plainText b.key = true
  desired : plain b.desired = true

/-- No placeholder is left in the task. -/
def PlainTask : TwTask F → Prop
  | .call c => '\x7b' ∉ c.name.toList ∧ ∀ a ∈ c.args, plain a = true
  | .goal g => ∀ b ∈ g.bindings, PlainBinding b
  | .multiGoal mg => ∀ b ∈ mg.bindings, PlainBinding b

section Tasks
variable (renders : ∀ f : F, plainText (Cxx.render f) = true) {doc : Dict F} {s : TwState F}

include renders

variable {params : Params F} {args : List (TwValue F)} {m : String × TwValue F} {subs : List (TwTask F)}

theorem plain_resolveArg (plainParams : PlainParams params) {arg : TwValue F} (isShaped : shapedArg arg = true)
    (bound : ∀ ref ∈ refsOf arg, Bound params ref) : plain (resolveParam arg params) = true := by
  cases arg with
  | string text =>
    rw [refsOf] at bound
    exact plain_resolveParam renders plainParams isShaped bound
  | _ => exact isShaped

theorem expandSubtasks_plain {calls : List (TwValue F)} (literal : ∀ call ∈ calls, literalName call = true)
    (isShaped : ∀ call ∈ calls, ∀ arg ∈ call.asArray.tail, shapedArg arg = true) (plainParams : PlainParams params)
    (bound : ∀ ref ∈ refsOfList calls, Bound params ref) : ∀ t ∈ expandSubtasks calls params, PlainTask t := by
  intro t member
  obtain ⟨call, inside, expanded⟩ := List.mem_filterMap.mp member
  obtain ⟨name, args, rfl, noOpen, rfl⟩ := expandSubtask_literal (literal call inside) expanded
  refine ⟨noOpen, fun a mem => ?_⟩
  obtain ⟨arg, isArg, rfl⟩ := List.mem_map.mp mem
  refine plain_resolveArg renders plainParams (isShaped _ inside arg isArg) fun ref inArg => bound ref ?_
  exact mem_refsOfList (mem_refsOf_element (List.mem_cons_of_mem _ isArg) inArg) inside

/-- A scan returns plain tasks. -/
theorem scan_plain (covers : IndexCovers doc) (fills : FillsPlaceholders doc) (declared : m ∈ members doc "methods")
    {scan : Dict F} (found : m.2.asDict.lookup "scan" = some (.dict scan))
    (plainState : PlainState s) (applied : buildScanMethod scan s args = some subs) : ∀ t ∈ subs, PlainTask t := by
  have ofScan {calls : List (TwValue F)} (inside : ∀ call ∈ calls, call ∈ scanSubtasks m.2) {params : Params F}
      (plainParams : PlainParams params) (bound : ∀ ref ∈ refsOfList calls, Bound params ref) :
      ∀ t ∈ expandSubtasks calls params, PlainTask t :=
    expandSubtasks_plain renders
      (fun call mem => covers.subtaskNames m declared call (List.mem_append_right _ (inside call mem)))
      (fun call mem => fills.subtasks m declared call (List.mem_append_right _ (inside call mem))) plainParams bound
  have branches : scanBranches m.2 = getArr scan "branches" := by rw [scanBranches, found]; rfl
  have done : scanDone m.2 = getArr scan "done_subtasks" := by rw [scanDone, found]; rfl
  have recurse : scanRecurse m.2 = ((scan.lookup "recurse").getD .nil).asString := by rw [scanRecurse, found]; rfl
  have subtasks : scanSubtasks m.2 = (scanBranches m.2).flatMap (fun br => getArr br.asDict "subtasks") ++ scanDone m.2 := rfl
  intro t member
  rcases mem_of_buildScanMethod applied member with ⟨br, inBranches, kv, entry, member⟩ | ⟨-, rfl⟩ | member
  · rw [← branches] at inBranches
    have plainKey : plain (.string kv.1 : TwValue F) = true := (plainCell_entry (plainState.getVar _) entry).1
    refine ofScan (fun call mem => ?_) (plainParams_runBinds plainState (plainParams_empty.set "_key" plainKey) _)
      (fun ref mem => bound_runBinds ?_) t member
    · rw [subtasks]
      exact List.mem_append_left _ (List.mem_flatMap.mpr ⟨br, inBranches, mem⟩)
    · rcases List.mem_cons.mp (fills.branchRefs m declared br inBranches ref mem) with isKey | isBind
      · exact .inl (.set (.inr isKey) _)
      · exact .inr ⟨fills.branchBinds m declared br inBranches, isBind⟩
  · rw [← recurse]
    exact ⟨fills.recurseNames m declared, List.forall_mem_nil _⟩
  · rw [← done] at member
    refine ofScan (fun call mem => ?_) plainParams_empty (fun ref mem => ?_) t member
    · rw [subtasks]
      exact List.mem_append_right _ mem
    · rw [fills.doneRefs m declared] at mem
      cases mem

theorem alternative_plain (refs : checkVarRefs doc = .ok ()) (covers : IndexCovers doc)
    (fills : FillsPlaceholders doc) (declared : m ∈ members doc "methods") {alts : List (TwValue F)} {alt : TwValue F}
    (found : m.2.asDict.lookup "alternatives" = some (.array alts)) (inAlts : alt ∈ alts) (plainState : PlainState s)
    (enough : args.length = paramCount m.2) (plainArgs : ∀ a ∈ args, plain a = true)
    (applied : buildMethodAlt (getArr m.2.asDict "params") alt.asDict s args = some subs) :
    ∀ t ∈ subs, PlainTask t := by
  have inside (call : TwValue F) (mem : call ∈ getArr alt.asDict "subtasks") : call ∈ methodSubtasks m.2 := by
    rw [methodSubtasks, getArr, found]
    exact List.mem_flatMap.mpr ⟨alt, inAlts, mem⟩
  have insideRefs {ref : String} : ∀ {calls : List (TwValue F)}, (∀ call ∈ calls, call ∈ methodSubtasks m.2) →
      ref ∈ refsOfList calls → ref ∈ refsOfList (methodSubtasks m.2) := by
    intro calls
    induction calls with
    | nil => exact fun _ mem => absurd mem List.not_mem_nil
    | cons call calls ih =>
      intro sub mem
      obtain ⟨first, rest⟩ := List.forall_mem_cons.mp sub
      rw [refsOfList] at mem
      exact (List.mem_append.mp mem).elim (fun mem => mem_refsOfList mem first) (ih rest)
  intro t member
  refine expandSubtasks_plain renders
    (fun call mem => covers.subtaskNames m declared call (List.mem_append_left _ (inside call mem)))
    (fun call mem => fills.subtasks m declared call (List.mem_append_left _ (inside call mem)))
    (plainParams_runBinds plainState (plainParams_buildParams plainArgs) _) (fun ref mem => ?_) t
    (mem_of_buildMethodAlt applied member)
  have inMethod := insideRefs inside mem
  have allowed := (checkVarRefs_eq_ok.mp refs).2 m declared ref inMethod
  rw [List.append_nil, List.mem_append] at allowed
  have isParam : ref ∈ paramNames m.2 := allowed.elim id (fills.methodGlobals m declared ref inMethod)
  exact bound_runBinds (.inl (bound_buildParams enough isParam))

theorem action_plain (refs : checkVarRefs doc = .ok ()) (fills : FillsPlaceholders doc) {a : String × TwValue F}
    (declared : a ∈ members doc "actions") (plainState : PlainState s) (enough : args.length = paramCount a.2)
    (plainArgs : ∀ a ∈ args, plain a = true) {s' : TwState F} (acted : buildAction a.2.asDict s args = some s') :
    PlainState s' := by
  refine plainState_runBody renders (plainParams_runBinds plainState (plainParams_buildParams plainArgs) _)
    (fills.bodies a declared) (fun ref mem => bound_runBinds ?_) acted plainState
  have allowed := (checkVarRefs_eq_ok.mp refs).1 a declared ref mem
  have local' : ref ∈ paramNames a.2 ++ bindNames a.2 := by
    rw [List.mem_append, List.mem_append] at allowed
    rcases allowed with (isParam | isGlobal) | isBind
    · exact List.mem_append_left _ isParam
    · exact fills.actionGlobals a declared ref mem isGlobal
    · exact List.mem_append_right _ isBind
  rcases List.mem_append.mp local' with isParam | isBind
  · exact .inl (bound_buildParams enough isParam)
  · exact .inr ⟨fills.binds a declared, isBind⟩

end Tasks

/-! ## The loaded document -/

section Braces

omit [CxxMath F]

variable {v w : TwValue F}

theorem braceFree_asString (free : braceFree v = true) : plainText v.asString = true := by
  cases v with
  | string s => exact free
  | _ => rfl

theorem braceFree_element (free : braceFree v = true) (mem : w ∈ v.asArray) : braceFree w = true := by
  cases v with
  | array xs =>
    change braceFreeList xs = true at free
    change w ∈ xs at mem
    induction xs with
    | nil => cases mem
    | cons x xs ih =>
      rw [braceFreeList, Bool.and_eq_true] at free
      rcases List.mem_cons.mp mem with rfl | mem
      · exact free.1
      · exact ih free.2 mem
  | _ => cases mem

theorem braceFree_entry {kv : String × TwValue F} (free : braceFree v = true) (mem : kv ∈ v.asDict) :
    plainText kv.1 = true ∧ braceFree kv.2 = true := by
  cases v with
  | dict kvs =>
    change braceFreeEntries kvs = true at free
    change kv ∈ kvs at mem
    induction kvs with
    | nil => cases mem
    | cons kv' kvs ih =>
      rw [braceFreeEntries, Bool.and_eq_true, Bool.and_eq_true] at free
      rcases List.mem_cons.mp mem with rfl | mem
      · exact free.1
      · exact ih free.2 mem
  | _ => cases mem

variable {key : String}

theorem braceFree_field (free : braceFree v = true) (found : v.asDict.lookup key = some w) : braceFree w = true :=
  (braceFree_entry free (mem_of_lookup found)).2

theorem braceFree_getD {o : Option (TwValue F)} (free : ∀ v, o = some v → braceFree v = true) :
    braceFree (o.getD .nil) = true := by
  cases o with
  | none => rfl
  | some v => exact free v rfl

theorem BracesInside.field {doc : Dict F} (inside : BracesInside doc)
    (other : key ∉ ["actions", "methods"]) : braceFree ((doc.lookup key).getD .nil) = true :=
  braceFree_getD fun _ found => inside.fields _ (mem_of_lookup found) other

end Braces

section Variables

variable {v init : TwValue F}

theorem plain_of_shape {type : String × (TwValue F → Bool)} (isType : type ∈ initTypes) (isShape : type.2 v = true)
    (free : braceFree v = true) : plain v = true := by
  have numbers {n : Nat} (isVector : vector n v = true) : plain v = true := by
    simp only [vector, Bool.and_eq_true] at isVector
    cases v with
    | array xs =>
      rw [plain, plainList_iff]
      intro x mem
      have isNumber := List.all_eq_true.mp isVector.1 x mem
      cases x <;> first | rfl | cases isNumber
    | _ => cases isVector.1
  have scalar (notDict : v.isDict = false) (notArray : v.isArray = false) : plain v = true := by
    cases v with
    | dict kvs => cases notDict
    | array xs => cases notArray
    | string text => exact free
    | _ => rfl
  simp only [initTypes, List.mem_cons, List.not_mem_nil, or_false] at isType
  rcases isType with rfl | rfl | rfl | rfl | rfl | rfl | rfl | rfl | rfl | rfl
  all_goals first
    | exact numbers isShape
    | exact scalar (by cases v <;> first | rfl | cases isShape) (by cases v <;> first | rfl | cases isShape)

omit [CxxMath F] in
theorem initOf_cases {shape : TwValue F → Bool} (isInit : initOf shape init = true) :
    shape init = true ∨ objectOf shape init = true := by
  cases left : shape init with
  | true => exact .inl rfl
  | false =>
    cases right : objectOf shape init with
    | true => exact .inr rfl
    | false => simp [initOf, oneOf, left, right] at isInit

theorem varDef_init (isVar : varDef v = true) (found : v.asDict.lookup "init" = some init) :
    ∃ type ∈ (initTypes : List (String × (TwValue F → Bool))), initOf type.2 init = true := by
  cases v with
  | dict d =>
    change d.lookup "init" = some init at found
    simp only [varDef, objectWith, Bool.and_eq_true, List.all_eq_true] at isVar
    obtain ⟨⟨⟨⟨⟨-, hasType⟩, -⟩, -⟩, isTyped⟩, inits⟩ := isVar
    obtain ⟨typeName, typed⟩ := Option.isSome_iff_exists.mp hasType
    simp only [property, typed] at isTyped
    cases typeName with
    | string text =>
      obtain ⟨shape, isType⟩ : ∃ shape, (text, shape) ∈ (initTypes : List (String × (TwValue F → Bool))) := by
        simpa [stringIn] using isTyped
      refine ⟨(text, shape), isType, ?_⟩
      have ofType := inits (text, shape) isType
      simpa [typed, property, found, TwValue.asString] using ofType
    | _ => cases isTyped
  | _ => cases found

theorem schema_variables {doc : Dict F} (schema : ofSchema doc = true) :
    ∀ v ∈ getArr doc "variables", varDef v = true := by
  simp only [ofSchema, Bool.and_eq_true] at schema
  obtain ⟨⟨⟨⟨⟨-, variables'⟩, -⟩, -⟩, -⟩, -⟩ := schema
  intro v mem
  rw [getArr] at mem
  cases found : doc.lookup "variables" with
  | none =>
    rw [found] at mem
    cases mem
  | some vars =>
    rw [found] at mem
    rw [property, found] at variables'
    cases vars with
    | array vs => exact List.all_eq_true.mp variables' v mem
    | _ => cases mem

theorem plainState_loadVariable {s : TwState F} (h : PlainState s) (isVar : varDef v = true)
    (free : braceFree v = true) : PlainState (loadVariable s v) := by
  rw [loadVariable]
  split
  · rename_i name entries named found
    have plainName := braceFree_asString (braceFree_field free named)
    have freeInit := braceFree_field free found
    obtain ⟨type, isType, isInit⟩ := varDef_init isVar found
    have plainEntries : ∀ kv ∈ entries, plainText kv.1 = true ∧ plain kv.2 = true := by
      rcases initOf_cases isInit with isShape | isObject
      · exact absurd (plain_of_shape isType isShape freeInit) (by simp [plain])
      · intro kv mem
        have freeEntry := braceFree_entry freeInit mem
        exact ⟨freeEntry.1, plain_of_shape isType (List.all_eq_true.mp isObject kv mem) freeEntry.2⟩
    clear found freeInit isInit
    induction entries generalizing s with
    | nil => exact h
    | cons kv entries ih =>
      obtain ⟨first, rest⟩ := List.forall_mem_cons.mp plainEntries
      exact ih (h.setNested plainName first.1 first.2) rest
  · rename_i name init notDict named found
    have plainName := braceFree_asString (braceFree_field free named)
    obtain ⟨type, isType, isInit⟩ := varDef_init isVar found
    refine h.setVar plainName ?_
    have plainInit : plain init = true := by
      rcases initOf_cases isInit with isShape | isObject
      · exact plain_of_shape isType isShape (braceFree_field free found)
      · cases init with
        | dict kvs => exact absurd rfl (notDict kvs)
        | _ => cases isObject
    cases init with
    | dict kvs => cases plainInit
    | _ => exact plainInit
  · exact h

end Variables

section Loaded
variable {doc : Dict F}

theorem plainState_loadEntities {entities : Dict F}
    (free : ∀ ep ∈ entities, plainText ep.1 = true ∧ braceFree ep.2 = true) {gs : TwReBAC.TwReBACGraph F × TwState F}
    (h : PlainState gs.2) : PlainState (loadEntities entities gs).2 := by
  have ofEntity {entity : String} (plainEntity : plainText entity = true) : ∀ {caps : List (TwValue F)}
      {gs : TwReBAC.TwReBACGraph F × TwState F}, (∀ cap ∈ caps, braceFree cap = true) → PlainState gs.2 →
      PlainState (caps.foldl (loadCapability entity) gs).2 := by
    intro caps
    induction caps with
    | nil => exact fun _ h => h
    | cons cap caps ih =>
      intro gs free h
      obtain ⟨first, rest⟩ := List.forall_mem_cons.mp free
      have plainVar : plainText ("_cap_" ++ cap.asString) = true := by
        rw [plainText_append, braceFree_asString first, Bool.and_true]
        rfl
      exact ih rest (h.setNested plainVar plainEntity rfl)
  rw [loadEntities]
  induction entities generalizing gs with
  | nil => exact h
  | cons ep entities ih =>
    obtain ⟨first, rest⟩ := List.forall_mem_cons.mp free
    exact ih rest (ofEntity first.1 (fun cap mem => braceFree_element first.2 mem) h)

theorem plainState_loadState (schema : ofSchema doc = true) (inside : BracesInside doc) :
    PlainState (loadState doc) := by
  have isVars := schema_variables schema
  have freeVars : ∀ v ∈ getArr doc "variables", braceFree v = true := fun v mem =>
    braceFree_element (inside.field (by decide)) mem
  have fold : ∀ {vars : List (TwValue F)} {s : TwState F}, (∀ v ∈ vars, varDef v = true) →
      (∀ v ∈ vars, braceFree v = true) → PlainState s → PlainState (vars.foldl loadVariable s) := by
    intro vars
    induction vars with
    | nil => exact fun _ _ h => h
    | cons v vars ih =>
      intro s isVars free h
      obtain ⟨isVar, areVars⟩ := List.forall_mem_cons.mp isVars
      obtain ⟨first, rest⟩ := List.forall_mem_cons.mp free
      exact ih areVars rest (plainState_loadVariable h isVar first)
  have loaded := fold isVars freeVars (fun var v found => nomatch found : PlainState (TwState.empty : TwState F))
  refine plainState_loadEntities (fun ep mem => braceFree_entry (braceFree_getD fun v found => ?_) mem) loaded
  have freeCaps : braceFree ((doc.lookup "capabilities").getD .nil) = true := inside.field (by decide)
  exact braceFree_field freeCaps found

theorem wellBraced_of_plain {cs : List Char} (isPlain : plainChars cs = true) : wellBraced none cs = true := by
  induction cs with
  | nil => rfl
  | cons c cs ih =>
    simp only [plainChars, List.all_cons, Bool.and_eq_true, Bool.not_eq_true'] at isPlain
    rw [wellBraced_char isPlain.1]
    exact ih isPlain.2

theorem plainTask_loadTask (renders : ∀ f : F, plainText (Cxx.render f) = true) (inside : BracesInside doc)
    (fills : FillsPlaceholders doc) {def' : TwValue F} (listed : def' ∈ getArr doc "todo_list") {t : TwTask F}
    (loaded : loadTask def' = some t) : PlainTask t := by
  have free : braceFree def' = true := braceFree_element (inside.field (by decide)) listed
  have values := fills.goalValues def' listed t loaded
  rcases loadTask_cases loaded with ⟨td, mg, rfl, found, rfl⟩ | ⟨td, g, rfl, found, rfl⟩ | ⟨head, args, rfl, rfl⟩
  · intro b mem
    obtain ⟨vp, inGoal, inVar⟩ := List.mem_flatMap.mp mem
    obtain ⟨kp, entry, rfl⟩ := List.mem_map.mp inVar
    have freeGoal := braceFree_field free found
    exact ⟨(braceFree_entry (braceFree_entry freeGoal inGoal).2 entry).1, values _ mem⟩
  · intro b mem
    obtain ⟨entry, inGoal, made⟩ := List.mem_filterMap.mp mem
    obtain ⟨ptr, pointed, key⟩ := goalBinding_eq_some made
    have freeEntry := braceFree_element (braceFree_field free found) inGoal
    have plainPtr := braceFree_asString (braceFree_field freeEntry pointed)
    refine ⟨?_, values b mem⟩
    rw [key]
    refine plainText_toText renders (plain_parsePointer renders plainParams_empty (wellBraced_of_plain plainPtr)
      fun ref mem => ?_).2
    rw [varRefs_of_noOpen (noOpen_of_plain plainPtr)] at mem
    cases mem
  · have plainName := braceFree_asString (braceFree_element free (List.mem_cons_self : head ∈ head :: args))
    exact ⟨noOpen_of_plain plainName, fills.todoArgs _ listed⟩

end Loaded

/-! ## Runs -/

/-- The tasks fit the parameters, and neither they nor the state have braces. -/
structure PlainConfig (doc : Dict F) (c : Config F) : Prop where
  fits : ∀ t ∈ c.2, TaskFits doc t
  state : PlainState c.1
  tasks : ∀ t ∈ c.2, PlainTask t

section Runs
variable (renders : ∀ f : F, plainText (Cxx.render f) = true) {doc : JsonObject F}

include renders

/-- A method that gets what it declares returns plain tasks. -/
theorem method_plain (refs : checkVarRefs doc.entries = .ok ()) (covers : IndexCovers doc.entries)
    (fills : FillsPlaceholders doc.entries) {name : String} {methods : List (TwMethodFn F)} {method : TwMethodFn F}
    (found : (loadCallables doc.entries).taskMethods.find? name = some methods) (member : method ∈ methods)
    {s : TwState F} (plainState : PlainState s) {args : List (TwValue F)}
    (receives : (Invocation.method name args).Receives doc.entries) (plainArgs : ∀ a ∈ args, plain a = true)
    {subs : List (TwTask F)} (applied : method s args = some subs) : ∀ t ∈ subs, PlainTask t := by
  rw [find?_taskMethods (doc.nodup_members "methods")] at found
  obtain ⟨m, declared, made⟩ := Option.bind_eq_some_iff.mp found
  obtain ⟨m', declared', enough⟩ := receives
  obtain rfl := Option.some.inj (declared.symm.trans declared')
  have inMethods := mem_of_lookup declared
  rcases mem_methodsOf made member with ⟨scan, isScan, rfl⟩ | ⟨notScan, alts, hasAlts, alt, inAlts, rfl⟩
  · exact scan_plain renders covers fills inMethods isScan plainState applied
  · rw [notScan] at enough
    exact alternative_plain renders refs covers fills inMethods hasAlts inAlts plainState
      (enough.resolve_left Bool.false_ne_true) plainArgs applied

theorem step_plain (arity : checkArity doc.entries = .ok ()) (refs : checkVarRefs doc.entries = .ok ())
    (covers : IndexCovers doc.entries) (fills : FillsPlaceholders doc.entries) {x y : Config F}
    {label : Option (TwCall F)} (step : Step (loadCallables doc.entries) x label y) (h : PlainConfig doc.entries x) :
    PlainConfig doc.entries y := by
  have fits := step_fits arity covers step h.fits
  have receives {inv : Invocation F} (invoked : Invokes (loadCallables doc.entries) x inv) :=
    invoked_of_fits doc covers h.fits invoked
  obtain ⟨state, tasks⟩ : PlainState y.1 ∧ ∀ t ∈ y.2, PlainTask t := by
    cases step with
    | act ha hs =>
      obtain ⟨plainCall, rest⟩ := List.forall_mem_cons.mp h.tasks
      obtain ⟨a, declared, enough⟩ := receives (.act ha)
      rw [find?_actions (doc.nodup_members "actions")] at ha
      obtain ⟨a', declared', made⟩ := Option.bind_eq_some_iff.mp ha
      obtain rfl := Option.some.inj (declared.symm.trans declared')
      rw [actionOf] at made
      split at made
      · cases made
        exact ⟨action_plain renders refs fills (mem_of_lookup declared) h.state enough plainCall.2 hs, rest⟩
      · cases made
    | task ha hm hmem hsubs =>
      obtain ⟨plainCall, rest⟩ := List.forall_mem_cons.mp h.tasks
      have subtasks := method_plain renders refs covers fills hm hmem h.state (receives (.task ha hm)) plainCall.2 hsubs
      exact ⟨h.state, List.forall_mem_append.mpr ⟨subtasks, rest⟩⟩
    | goalMet => exact ⟨h.state, (List.forall_mem_cons.mp h.tasks).2⟩
    | @goalVia s g rest subs b unmet methods method hu hm hmem hsubs =>
      have plainBinding := (List.forall_mem_cons.mp h.tasks).1 b (mem_of_bindingsUnsatisfied hu b List.mem_cons_self)
      have plainArgs : ∀ a ∈ [.string b.key, b.desired], plain a = true :=
        List.forall_mem_cons.mpr ⟨plainBinding.key, List.forall_mem_singleton.mpr plainBinding.desired⟩
      have subtasks := method_plain renders refs covers fills hm hmem h.state (receives (.goal hu hm)) plainArgs hsubs
      exact ⟨h.state, List.forall_mem_append.mpr ⟨subtasks, h.tasks⟩⟩
    | multiMet => exact ⟨h.state, (List.forall_mem_cons.mp h.tasks).2⟩
    | @multiVia s mg rest b unmet hu hb =>
      have plainGoal : PlainTask (.goal ⟨[b]⟩) := List.forall_mem_singleton.mpr
        ((List.forall_mem_cons.mp h.tasks).1 b (mem_of_bindingsUnsatisfied hu b hb))
      exact ⟨h.state, List.forall_mem_cons.mpr ⟨plainGoal, h.tasks⟩⟩
  exact ⟨fits, state, tasks⟩

omit renders in
omit [CxxMath F] in
theorem PlainTask.substituted {c : TwCall F} (h : PlainTask (.call c)) : c.Substituted :=
  ⟨varRefs_of_noOpen h.1, fun a mem => tokensOf_plain (h.2 a mem)⟩

/-- No task and no state that a run reaches, and no step of its plan, has a placeholder left. -/
theorem run_substituted {validator : Validator F} (doc : JsonObject F)
    (valid : validate validator (.dict doc.entries) = .ok ()) (inside : BracesInside doc.entries)
    (covers : IndexCovers doc.entries) (fills : FillsPlaceholders doc.entries) {l : TwLoaded F}
    (loaded : loadDomain (.dict doc.entries) = some l) {q : List (TwCall F)} {c : Config F}
    (run : Run (Step l.domain) (l.state, l.tasks) q c) :
    (∀ call ∈ q, call.Substituted) ∧ (∀ call, .call call ∈ c.2 → call.Substituted) ∧ c.1.Substituted := by
  have accepted := accepted_of_validate valid
  have fits := run_fits valid covers loaded (.refl (l.state, l.tasks))
  obtain ⟨kvs, same, domain, state, tasks⟩ := loadDomain_eq_some loaded
  cases same
  rw [domain] at run
  have start : PlainConfig doc.entries (l.state, l.tasks) := by
    refine ⟨fits, state ▸ plainState_loadState accepted.schema inside, fun t member => ?_⟩
    obtain ⟨def', listed, made⟩ := mem_of_mapM tasks t member
    exact plainTask_loadTask renders inside fills listed made
  have keeps (x : Config F) (label : Option (TwCall F)) (y : Config F)
      (step : Step (loadCallables doc.entries) x label y) (h : PlainConfig doc.entries x) : PlainConfig doc.entries y :=
    step_plain renders accepted.arity accepted.refs covers fills step h
  have reached := run.invariant keeps start
  refine ⟨run.labels keeps (fun x call y step h => ?_) start, fun call mem => (reached.tasks _ mem).substituted,
    reached.state.substituted⟩
  cases step with
  | act ha hs => exact PlainTask.substituted (List.forall_mem_cons.mp h.tasks).1

end Runs

/-- A box that a method moves to the table. -/
def parcelDoc : JsonObject Int :=
  ⟨[("@type", .string "domain:Definition"), ("name", .string "parcel"),
    ("variables", .array [.dict [("name", .string "pos"), ("type", .string "ref"),
      ("init", .dict [("box", .string "shelf")])]]),
    ("actions", .dict [("put", .dict [("params", .array [.string "item", .string "place"]),
      ("bind", .array [.dict [("name", .string "first"), ("pointer", .string "/pos/box")]]),
      ("body", .array [.dict [("pointer/set", .string "/pos/\x7bitem\x7d"),
        ("value", .string "\x7bplace\x7d")]])])]),
    ("methods", .dict [("move", .dict [("params", .array [.string "item"]),
      ("alternatives", .array [.dict [("subtasks", .array [
        .array [.string "put", .string "\x7bitem\x7d", .string "table"]])]])])]),
    ("todo_list", .array [.array [.string "move", .string "box"]])], by
    simp [UniqueKeys, UniqueKeysEntries, UniqueKeysList]⟩

/-- What `parcelDoc` loads as. -/
def parcel : TwLoaded Int :=
  ⟨loadCallables parcelDoc.entries, loadState parcelDoc.entries, [.call ⟨"move", [.string "box"]⟩]⟩

theorem indexCovers_parcelDoc : IndexCovers parcelDoc.entries :=
  indexCovers_of_single rfl rfl rfl rfl (by decide) (by decide)

theorem fillsPlaceholders_parcelDoc : FillsPlaceholders parcelDoc.entries where
  actionGlobals := by decide
  methodGlobals := by decide
  bodies := by decide
  binds := by
    intro a isAction bind mem
    obtain rfl := List.mem_singleton.mp isAction
    obtain rfl := List.mem_singleton.mp mem
    refine ⟨.string "/pos/box", rfl, fun params => ?_⟩
    rw [parsePointer_of_plain (by decide)]
    decide
  subtasks := by decide
  branchRefs := by decide
  branchBinds := by
    intro m isMethod br mem
    obtain rfl := List.mem_singleton.mp isMethod
    cases mem
  doneRefs := by decide
  recurseNames := by decide
  todoArgs := by decide
  goalValues := by
    intro def' mem t loaded b inside
    obtain rfl := List.mem_singleton.mp mem
    cases loaded
    cases inside

/-- The box is moved, and neither the plan nor the state has a placeholder. -/
theorem run_substituted_parcel :
    (∀ call ∈ ([⟨"put", [.string "box", .string "table"]⟩] : List (TwCall Int)), call.Substituted) ∧
    (parcel.state.setNested "pos" (.string "box") (.string "table")).Substituted := by
  have expands : Step parcel.domain (parcel.state, parcel.tasks) none
      (parcel.state, [.call ⟨"put", [.string "box", .string "table"]⟩] ++ []) :=
    .task rfl rfl List.mem_cons_self rfl
  have puts : Step parcel.domain (parcel.state, [.call ⟨"put", [.string "box", .string "table"]⟩])
      (some ⟨"put", [.string "box", .string "table"]⟩)
      (parcel.state.setNested "pos" (.string "box") (.string "table"), []) :=
    .act rfl rfl
  obtain ⟨plan, -, state⟩ := run_substituted plainText_numeral parcelDoc
    (show validate .exact (.dict parcelDoc.entries) = .ok () from rfl)
    ⟨by decide, by decide, by decide⟩ indexCovers_parcelDoc fillsPlaceholders_parcelDoc (l := parcel) rfl
    (.silent expands (.label puts (.refl _)))
  exact ⟨plan, state⟩

/-- A subtask that refers to a global variable. -/
def globalDoc : JsonObject Int :=
  ⟨[("@type", .string "domain:Definition"), ("name", .string "global"),
    ("variables", .array [.dict [("name", .string "x"), ("type", .string "int"), ("init", .int 1)]]),
    ("actions", .dict [("go", .dict [("params", .array [.string "place"])])]),
    ("methods", .dict [("visit", .dict [("params", .array []),
      ("alternatives", .array [.dict [("subtasks", .array [.array [.string "go", .string "\x7bx\x7d"]])]])])]),
    ("todo_list", .array [.array [.string "visit"]])], by
    simp [UniqueKeys, UniqueKeysEntries, UniqueKeysList]⟩

/-- The document is accepted, and its plan has the placeholder in it. -/
theorem plan_with_placeholder : validate .exact (.dict globalDoc.entries) = .ok () ∧ BracesInside globalDoc.entries ∧
    ∃ l, loadDomain (.dict globalDoc.entries) = some l ∧
      twPlan l.state l.tasks l.domain [] = .ok (some [⟨"go", [.string "\x7bx\x7d"]⟩]) ∧
      ¬(⟨"go", [.string "\x7bx\x7d"]⟩ : TwCall Int).Substituted := by
  refine ⟨rfl, ⟨by decide, by decide, by decide⟩,
    ⟨loadCallables globalDoc.entries, loadState globalDoc.entries, [.call ⟨"visit", []⟩]⟩, rfl, ?_, ?_⟩
  · decide +kernel
  · intro substituted
    exact absurd (substituted.2 _ List.mem_cons_self) (by decide)

end WeftWarp
