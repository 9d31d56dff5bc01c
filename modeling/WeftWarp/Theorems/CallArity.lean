import WeftWarp.Theorems.Documents
import WeftWarp.Theorems.Validated

/-! # Arguments and parameters

`validate` compares the calls of a document with the parameters of what they call, but not every call that planning
can make. Where the others agree with its index as well, whatever is called gets as many arguments as it declares. -/

namespace WeftWarp

open TwLoader
open JsonldLoader

variable {F : Type} [CxxMath F]

/-! ### What is invoked -/

/-- The entry of `methods` is loaded as a scan. -/
def isScan (m : TwValue F) : Bool := ((m.asDict.lookup "scan").getD .nil).isDict

/-- The document declares what is invoked, an action or a method with alternatives with as many parameters as it
    gets arguments. -/
def Invocation.Receives (doc : Dict F) : Invocation F → Prop
  | .action name args => ∃ a, (members doc "actions").lookup name = some a ∧ args.length = paramCount a
  | .method name args =>
    ∃ m, (members doc "methods").lookup name = some m ∧ (isScan m = true ∨ args.length = paramCount m)

/-! ### What the index does not cover -/

/-- `arity_index` of the document. -/
def indexOf (doc : Dict F) : List (String × Nat) :=
  arityIndex (members doc "actions") (members doc "methods")

/-- The subtasks of a scan: those of its branches and those behind its last key. -/
def scanSubtasks (m : TwValue F) : List (TwValue F) :=
  let scan := ((m.asDict.lookup "scan").getD .nil).asDict
  (getArr scan "branches").flatMap (fun br => getArr br.asDict "subtasks") ++ getArr scan "done_subtasks"

/-- The task that a scan puts behind the subtasks of a branch, empty if there is none. -/
def scanRecurse (m : TwValue F) : String :=
  ((((m.asDict.lookup "scan").getD .nil).asDict.lookup "recurse").getD .nil).asString

/-- The name of the call is a text in which nothing is filled in. -/
def literalName : TwValue F → Bool
  | .array (.string name :: _) => !name.toList.contains '\x7b'
  | .array (_ :: _) => false
  | _ => true

/-- A method that a binding of a goal leads to is a scan or takes a key and a value. -/
def Dispatches (doc : Dict F) (b : TwGoalBinding F) : Prop :=
  ∀ m, (members doc "methods").lookup b.var = some m → isScan m = true ∨ paramCount m = 2

/-- The calls that the validator leaves out agree with its index, and the index with the actions. -/
structure IndexCovers (doc : Dict F) : Prop where
  /-- An action and a method of the same name declare as many parameters. -/
  sameArity : ∀ a ∈ members doc "actions", ∀ m ∈ members doc "methods", a.1 = m.1 → paramCount a.2 = paramCount m.2
  /-- The name of a call in the list of tasks is a text. -/
  todoNames : ∀ call ∈ getArr doc "todo_list", ∀ head args, call = .array (head :: args) → head.isString = true
  subtaskNames : ∀ m ∈ members doc "methods", ∀ call ∈ methodSubtasks m.2 ++ scanSubtasks m.2, literalName call = true
  scanCalls : ∀ m ∈ members doc "methods", ∀ call ∈ scanSubtasks m.2,
    checkCall (indexOf doc) ("method " ++ m.1) call = .ok ()
  recurseCalls : ∀ m ∈ members doc "methods", scanRecurse m.2 ≠ "" →
    Agrees (F := F) (indexOf doc) ⟨scanRecurse m.2, []⟩
  goalMethods : ∀ def' ∈ getArr doc "todo_list", ∀ t, loadTask def' = some t → ∀ b ∈ t.bindings, Dispatches doc b

variable {doc : Dict F} {m : TwValue F} {name : String}

/-- A document with one call in its list of tasks and one method, which is not a scan. -/
theorem indexCovers_of_single {args : List (TwValue F)} {m : String × TwValue F}
    (todo : getArr doc "todo_list" = [.array (.string name :: args)]) (methods : members doc "methods" = [m])
    (noScan : scanSubtasks m.2 = []) (noRecurse : scanRecurse m.2 = "")
    (sameArity : ∀ a ∈ members doc "actions", a.1 = m.1 → paramCount a.2 = paramCount m.2)
    (subtaskNames : ∀ call ∈ methodSubtasks m.2, literalName call = true) : IndexCovers doc where
  sameArity a action m' method := by
    obtain rfl : m' = m := by simpa [methods] using method
    exact sameArity a action
  todoNames call listed head args' same := by
    obtain rfl : call = .array (.string name :: args) := by simpa [todo] using listed
    cases same
    rfl
  subtaskNames m' method call inside := by
    obtain rfl : m' = m := by simpa [methods] using method
    rw [noScan, List.append_nil] at inside
    exact subtaskNames call inside
  scanCalls m' method call inside := by
    obtain rfl : m' = m := by simpa [methods] using method
    rw [noScan] at inside
    cases inside
  recurseCalls m' method recurses := by
    obtain rfl : m' = m := by simpa [methods] using method
    exact absurd noRecurse recurses
  goalMethods def' listed t loaded b inside := by
    obtain rfl : def' = .array (.string name :: args) := by simpa [todo] using listed
    cases loaded
    cases inside

/-! ### Tasks that fit -/

/-- A call agrees with the index, and a goal leads to methods that take what it gives them. -/
def TaskFits (doc : Dict F) : TwTask F → Prop
  | .call c => Agrees (indexOf doc) c
  | .goal g => ∀ b ∈ g.bindings, Dispatches doc b
  | .multiGoal mg => ∀ b ∈ mg.bindings, Dispatches doc b

section Fits
variable {doc : Dict F}

theorem resolveParam_of_plain {name : String} (noOpen : '\x7b' ∉ name.toList) (params : Params F) :
    resolveParam (.string name) params = .string name := by
  have notOne : isPlaceholder name.toList = false := by
    by_contra holds
    obtain ⟨inside, -, -, placeholder⟩ := isPlaceholder_iff.mp (Bool.not_eq_false _ ▸ holds)
    exact noOpen (by rw [placeholder]; simp)
  simp [resolveParam, notOne, noOpen]

variable {params : Params F} {t : TwTask F}

/-- A call with a literal name keeps it, and its arguments are filled in. -/
theorem expandSubtask_literal {call : TwValue F} (literal : literalName call = true)
    (expanded : expandSubtask params call = some t) : ∃ name args, call = .array (.string name :: args) ∧
      '\x7b' ∉ name.toList ∧ t = .call ⟨name, args.map (resolveParam · params)⟩ := by
  cases call with
  | array items =>
    cases items with
    | nil => cases expanded
    | cons head args =>
      cases head with
      | string name =>
        have noOpen : '\x7b' ∉ name.toList := by simpa [literalName] using literal
        simp only [expandSubtask, TwValue.asArray, resolveParam_of_plain noOpen, TwValue.asString,
          Option.some.injEq] at expanded
        exact ⟨name, args, rfl, noOpen, expanded.symm⟩
      | _ => cases literal
  | _ => cases expanded

theorem expandSubtask_fits {call : TwValue F} (literal : literalName call = true) {ctx : String}
    (checked : checkCall (indexOf doc) ctx call = .ok ()) (expanded : expandSubtask params call = some t) :
    TaskFits doc t := by
  obtain ⟨name, args, rfl, -, rfl⟩ := expandSubtask_literal literal expanded
  intro n found
  rw [List.length_map]
  exact checkCall_eq_ok.mp checked n found

theorem expandSubtasks_fit {calls : List (TwValue F)} {ctx : String}
    (literal : ∀ call ∈ calls, literalName call = true)
    (checked : ∀ call ∈ calls, checkCall (indexOf doc) ctx call = .ok ()) :
    ∀ t ∈ expandSubtasks calls params, TaskFits doc t := by
  intro t member
  obtain ⟨call, inside, expanded⟩ := List.mem_filterMap.mp member
  exact expandSubtask_fits (literal call inside) (checked call inside) expanded

/-- The methods of a document return tasks that fit, whatever they get. -/
theorem subtasks_fit (arity : checkArity doc = .ok ()) (covers : IndexCovers doc) {m : String × TwValue F}
    (declared : m ∈ members doc "methods") {method : TwMethodFn F} (built : MethodOf m.2 method) {s : TwState F}
    {args : List (TwValue F)} {subs : List (TwTask F)} (applied : method s args = some subs) :
    ∀ t ∈ subs, TaskFits doc t := by
  have literal := covers.subtaskNames m declared
  intro t member
  cases built with
  | @scan scan found =>
    have ofScan {calls : List (TwValue F)} (inside : ∀ call ∈ calls, call ∈ scanSubtasks m.2) {params : Params F}
        (member : t ∈ expandSubtasks calls params) : TaskFits doc t :=
      expandSubtasks_fit (fun call mem => literal call (List.mem_append_right _ (inside call mem)))
        (fun call mem => covers.scanCalls m declared call (inside call mem)) t member
    rcases mem_of_buildScanMethod applied member with ⟨br, inBranches, kv, -, member⟩ | ⟨recurses, rfl⟩ | member
    · refine ofScan (fun call mem => ?_) member
      rw [scanSubtasks, found]
      exact List.mem_append_left _ (List.mem_flatMap.mpr ⟨br, inBranches, mem⟩)
    · have recurse : scanRecurse m.2 = ((scan.lookup "recurse").getD .nil).asString := by rw [scanRecurse, found]; rfl
      rw [← recurse] at recurses ⊢
      exact covers.recurseCalls m declared recurses
    · refine ofScan (fun call mem => ?_) member
      rw [scanSubtasks, found]
      exact List.mem_append_right _ mem
  | @alternative alts alt found inAlts =>
    have inside (call : TwValue F) (mem : call ∈ getArr alt.asDict "subtasks") : call ∈ methodSubtasks m.2 := by
      rw [methodSubtasks, getArr, found]
      exact List.mem_flatMap.mpr ⟨alt, inAlts, mem⟩
    exact expandSubtasks_fit (fun call mem => literal call (List.mem_append_left _ (inside call mem)))
      (fun call mem => (checkArity_eq_ok.mp arity).2 m declared call (inside call mem)) t
      (mem_of_buildMethodAlt applied member)

theorem loadTask_fits (arity : checkArity doc = .ok ()) (covers : IndexCovers doc) {def' : TwValue F}
    (listed : def' ∈ getArr doc "todo_list") (loaded : loadTask def' = some t) : TaskFits doc t := by
  have goals := covers.goalMethods def' listed t loaded
  rcases loadTask_cases loaded with ⟨td, mg, rfl, -, rfl⟩ | ⟨td, g, rfl, -, rfl⟩ | ⟨head, args, rfl, rfl⟩
  · exact goals
  · exact goals
  · have checked := (checkArity_eq_ok.mp arity).1 _ listed
    have isString := covers.todoNames _ listed head args rfl
    cases head with
    | string name => exact checkCall_eq_ok.mp checked
    | _ => cases isString

/-! ### Runs -/

omit [CxxMath F] in
theorem TaskFits.binding [Cxx F] {mg : TwMultiGoal F} (fits : TaskFits doc (.multiGoal mg)) {b : TwGoalBinding F}
    (member : b ∈ mg.bindings) : TaskFits doc (.goal ⟨[b]⟩) := by
  intro c inside
  obtain rfl := List.mem_singleton.mp inside
  exact fits c member

theorem step_fits (arity : checkArity doc = .ok ()) (covers : IndexCovers doc) {x y : Config F}
    {label : Option (TwCall F)} (step : Step (loadCallables doc) x label y) (fits : ∀ t ∈ x.2, TaskFits doc t) :
    ∀ t ∈ y.2, TaskFits doc t := by
  have fromMethods {name : String} {methods : List (TwMethodFn F)} {method : TwMethodFn F} {s : TwState F}
      {args : List (TwValue F)} {subs : List (TwTask F)}
      (found : (loadCallables doc).taskMethods.find? name = some methods) (member : method ∈ methods)
      (applied : method s args = some subs) : ∀ t ∈ subs, TaskFits doc t := by
    obtain ⟨m, declared, built⟩ := methods_of_document found
    exact subtasks_fit arity covers declared (built method member) applied
  cases step with
  | act ha hs => exact (List.forall_mem_cons.mp fits).2
  | task ha hm hmem hsubs =>
    exact List.forall_mem_append.mpr ⟨fromMethods hm hmem hsubs, (List.forall_mem_cons.mp fits).2⟩
  | goalMet h => exact (List.forall_mem_cons.mp fits).2
  | goalVia hu hm hmem hsubs => exact List.forall_mem_append.mpr ⟨fromMethods hm hmem hsubs, fits⟩
  | multiMet h => exact (List.forall_mem_cons.mp fits).2
  | multiVia hu hb =>
    have head := (List.forall_mem_cons.mp fits).1
    exact List.forall_mem_cons.mpr ⟨head.binding (mem_of_bindingsUnsatisfied hu _ hb), fits⟩

theorem run_fits {validator : Validator F} (valid : validate validator (.dict doc) = .ok ()) (covers : IndexCovers doc) {l : TwLoaded F}
    (loaded : loadDomain (.dict doc) = some l) {q : List (TwCall F)} {c : Config F}
    (run : Run (Step l.domain) (l.state, l.tasks) q c) : ∀ t ∈ c.2, TaskFits doc t := by
  have arity := (accepted_of_validate valid).arity
  obtain ⟨kvs, same, domain, -, tasks⟩ := loadDomain_eq_some loaded
  cases same
  rw [domain] at run
  refine run.invariant (P := fun c => ∀ t ∈ c.2, TaskFits doc t) (fun x label y step => step_fits arity covers step) ?_
  intro t member
  obtain ⟨def', listed, made⟩ := mem_of_mapM tasks t member
  exact loadTask_fits arity covers listed made

end Fits

/-! ### Arguments -/

theorem lookup_indexOf_action (covers : IndexCovers doc) {a : TwValue F}
    (declared : (members doc "actions").lookup name = some a) (isDict : a.isDict = true) :
    (indexOf doc).lookup name = some (paramCount a) := by
  rw [indexOf, arityIndex, List.lookup_append]
  cases hides : (nameArityMap (members doc "methods")).lookup name with
  | none => exact lookup_nameArityMap isDict declared
  | some n =>
    obtain ⟨m, mem, rfl⟩ := mem_of_nameArityMap hides
    rw [Option.some_or, covers.sameArity _ (mem_of_lookup declared) _ mem rfl]

omit [CxxMath F] in
theorem lookup_indexOf_method (declared : (members doc "methods").lookup name = some m) (isDict : m.isDict = true) :
    (indexOf doc).lookup name = some (paramCount m) := by
  rw [indexOf, arityIndex, List.lookup_append, lookup_nameArityMap isDict declared, Option.some_or]

theorem isDict_of_methodsOf {methods : List (TwMethodFn F)} (made : methodsOf m = some methods) :
    m.isDict = true := by
  cases m with
  | dict kvs => rfl
  | _ => cases made

theorem mem_methodsOf {methods : List (TwMethodFn F)} (made : methodsOf m = some methods) {method : TwMethodFn F}
    (member : method ∈ methods) :
    (∃ scan, m.asDict.lookup "scan" = some (.dict scan) ∧ method = buildScanMethod scan) ∨
    (isScan m = false ∧ ∃ alts, m.asDict.lookup "alternatives" = some (.array alts) ∧
      ∃ alt ∈ alts, method = buildMethodAlt (getArr m.asDict "params") alt.asDict) := by
  rw [methodsOf] at made
  split at made
  · rename_i scan found
    cases made
    exact .inl ⟨scan, found, List.mem_singleton.mp member⟩
  · rename_i alts found noScan
    cases made
    obtain ⟨alt, listed, rfl⟩ := List.mem_map.mp member
    refine .inr ⟨?_, alts, found, alt, (List.mem_filter.mp listed).1, rfl⟩
    rw [isScan]
    cases entry : m.asDict.lookup "scan" with
    | none => rfl
    | some v =>
      cases v with
      | dict scan => exact absurd entry (noScan scan)
      | _ => rfl
  · cases made

theorem invoked_of_fits (doc : JsonObject F) (covers : IndexCovers doc.entries) {c : Config F}
    (fits : ∀ t ∈ c.2, TaskFits doc.entries t) {inv : Invocation F}
    (invoked : Invokes (loadCallables doc.entries) c inv) : inv.Receives doc.entries := by
  cases invoked with
  | act ha =>
    rw [find?_actions (doc.nodup_members "actions")] at ha
    obtain ⟨a, declared, made⟩ := Option.bind_eq_some_iff.mp ha
    have isDict : a.isDict = true := by
      by_contra notDict
      rw [actionOf_eq_none.mpr (Bool.not_eq_true _ ▸ notDict)] at made
      cases made
    have agrees := (List.forall_mem_cons.mp fits).1
    exact ⟨a, declared, agrees _ (lookup_indexOf_action covers declared isDict)⟩
  | task ha hm =>
    rw [find?_taskMethods (doc.nodup_members "methods")] at hm
    obtain ⟨m, declared, made⟩ := Option.bind_eq_some_iff.mp hm
    have agrees := (List.forall_mem_cons.mp fits).1
    exact ⟨m, declared, .inr (agrees _ (lookup_indexOf_method declared (isDict_of_methodsOf made)))⟩
  | @goal s g rest b unmet methods hu hm =>
    rw [find?_taskMethods (doc.nodup_members "methods")] at hm
    obtain ⟨m, declared, -⟩ := Option.bind_eq_some_iff.mp hm
    have dispatches := (List.forall_mem_cons.mp fits).1 b (mem_of_bindingsUnsatisfied hu b List.mem_cons_self)
    exact ⟨m, declared, (dispatches m declared).imp_right Eq.symm⟩

/-- Whatever a run invokes gets as many arguments as it declares parameters. -/
theorem invoked_receives {validator : Validator F} (doc : JsonObject F)
    (valid : validate validator (.dict doc.entries) = .ok ()) (covers : IndexCovers doc.entries)
    {l : TwLoaded F} (loaded : loadDomain (.dict doc.entries) = some l) {q : List (TwCall F)} {c : Config F}
    (run : Run (Step l.domain) (l.state, l.tasks) q c) {inv : Invocation F} (invoked : Invokes l.domain c inv) :
    inv.Receives doc.entries := by
  have fits := run_fits valid covers loaded run
  obtain ⟨kvs, same, domain, -, -⟩ := loadDomain_eq_some loaded
  cases same
  rw [domain] at invoked
  exact invoked_of_fits doc covers fits invoked

/-- An errand that a method turns into an action. -/
def errandDoc : JsonObject Int :=
  ⟨[("@type", .string "domain:Definition"), ("name", .string "errand"),
    ("actions", .dict [("go", .dict [("params", .array [.string "place"])])]),
    ("methods", .dict [("visit", .dict [("params", .array []),
      ("alternatives", .array [.dict [("subtasks", .array [.array [.string "go", .string "park"]])]])])]),
    ("todo_list", .array [.array [.string "visit"]])], by
    simp [UniqueKeys, UniqueKeysEntries, UniqueKeysList]⟩

/-- What `errandDoc` loads as. -/
def errand : TwLoaded Int :=
  ⟨loadCallables errandDoc.entries, loadState errandDoc.entries, [.call ⟨"visit", []⟩]⟩

theorem indexCovers_errandDoc : IndexCovers errandDoc.entries :=
  indexCovers_of_single rfl rfl rfl rfl (by decide) (by decide)

theorem invoked_receives_errand : (Invocation.action "go" [.string "park"] : Invocation Int).Receives errandDoc.entries := by
  have expands : Step errand.domain (errand.state, errand.tasks) none
      (errand.state, [.call ⟨"go", [.string "park"]⟩] ++ []) :=
    .task rfl rfl List.mem_cons_self rfl
  exact invoked_receives errandDoc (show validate .exact (.dict errandDoc.entries) = .ok () from rfl) indexCovers_errandDoc
    (l := errand) rfl (.silent expands (.refl _)) (.act rfl)

/-- An action with a parameter, hidden in the index by a method without. -/
def hiddenDoc : JsonObject Int :=
  ⟨[("@type", .string "domain:Definition"), ("name", .string "hidden"),
    ("actions", .dict [("go", .dict [("params", .array [.string "place"])])]),
    ("methods", .dict [("go", .dict [("params", .array []), ("alternatives", .array [])])]),
    ("todo_list", .array [.array [.string "go"]])], by
    simp [UniqueKeys, UniqueKeysEntries, UniqueKeysList]⟩

/-- The planner runs the action without its argument, and its plan is the call. -/
theorem invoked_without_argument : validate .exact (.dict hiddenDoc.entries) = .ok () ∧
    ∃ l, loadDomain (.dict hiddenDoc.entries) = some l ∧
      Invokes l.domain (l.state, l.tasks) (.action "go" []) ∧
      twPlan l.state l.tasks l.domain [] = .ok (some [⟨"go", []⟩]) ∧
      ¬(Invocation.action "go" [] : Invocation Int).Receives hiddenDoc.entries := by
  refine ⟨rfl, ⟨loadCallables hiddenDoc.entries, loadState hiddenDoc.entries, [.call ⟨"go", []⟩]⟩, rfl, .act rfl, ?_, ?_⟩
  · decide +kernel
  · rintro ⟨a, declared, same⟩
    cases declared
    cases same

end WeftWarp
