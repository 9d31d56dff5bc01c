import WeftWarp.Loader
import WeftWarp.Theorems.PlanReturns

/-! # Loaded documents

Every action of a loaded document was built from an entry of its `actions` and every method from an entry of its
`methods`. Their effects are writes to variables and their subtasks are calls. -/

namespace WeftWarp

open TwLoader

variable {F : Type} [CxxMath F]

theorem loadDomain_eq_some {data : TwValue F} {l : TwLoaded F} (h : loadDomain data = some l) :
    ∃ kvs, data = .dict kvs ∧ l.domain = loadCallables kvs ∧ l.state = loadState kvs ∧
      (getArr kvs "todo_list").mapM loadTask = some l.tasks := by
  cases data with
  | dict kvs =>
    rw [loadDomain] at h
    split at h
    · obtain ⟨tasks, htasks, rfl⟩ := Option.map_eq_some_iff.mp h
      exact ⟨kvs, rfl, rfl, rfl, htasks⟩
    · cases h
  | _ => cases h

variable {t : TwTask F} {kvs : Dict F} {P : TwState F → Prop} {params : Params F} {s : TwState F}
  {args : List (TwValue F)} {subs : List (TwTask F)}

theorem loadTask_cases {item : TwValue F} (loaded : loadTask item = some t) :
    (∃ td mg, item = .dict td ∧ td.lookup "multigoal" = some (.dict mg) ∧
      t = .multiGoal ⟨mg.flatMap multiGoalBindings⟩) ∨
    (∃ td g, item = .dict td ∧ td.lookup "goal" = some (.array g) ∧ t = .goal ⟨g.filterMap goalBinding⟩) ∨
    ∃ name args, item = .array (name :: args) ∧ t = .call ⟨name.asString, args⟩ := by
  cases item with
  | dict td =>
    simp only [loadTask] at loaded
    split at loaded
    · rename_i mg found
      split at loaded
      · cases loaded
      · cases loaded
        exact .inl ⟨td, mg, rfl, found, rfl⟩
    · rename_i g found _
      split at loaded
      · cases loaded
      · cases loaded
        exact .inr (.inl ⟨td, g, rfl, found, rfl⟩)
    · cases loaded
  | array items =>
    cases items with
    | nil => cases loaded
    | cons name args =>
      cases loaded
      exact .inr (.inr ⟨name, args, rfl, rfl⟩)
  | _ => cases loaded

theorem goalBinding_eq_some {entry : TwValue F} {b : TwGoalBinding F} (made : goalBinding entry = some b) :
    ∃ ptr, entry.asDict.lookup "pointer" = some ptr ∧
      b.key = (parsePointer ptr.asString (.empty : Params F)).2.toText := by
  unfold goalBinding at made
  split at made
  · rename_i ptr desired pointed _
    dsimp only at made
    split at made
    · cases made
    · cases made
      exact ⟨ptr, pointed, rfl⟩
  · cases made

/-! ### Where actions and methods come from -/

theorem taskMethods_loadAction (d : TwDomain F) (np : String × TwValue F) :
    (loadAction d np).taskMethods = d.taskMethods := by
  rw [loadAction]
  split <;> rfl

theorem actions_loadMethod (d : TwDomain F) (np : String × TwValue F) : (loadMethod d np).actions = d.actions := by
  rw [loadMethod]
  split
  · split <;> rfl
  · rfl

theorem taskMethods_loadActions (entries : Dict F) (d : TwDomain F) :
    (entries.foldl loadAction d).taskMethods = d.taskMethods := by
  induction entries generalizing d with
  | nil => rfl
  | cons np entries ih => rw [List.foldl_cons, ih, taskMethods_loadAction]

theorem actions_loadMethods (entries : Dict F) (d : TwDomain F) :
    (entries.foldl loadMethod d).actions = d.actions := by
  induction entries generalizing d with
  | nil => rfl
  | cons np entries ih => rw [List.foldl_cons, ih, actions_loadMethod]

variable {name : String}

theorem find?_loadActions {act : TwActionFn F} : ∀ {entries : Dict F} {d : TwDomain F},
    (entries.foldl loadAction d).actions.find? name = some act →
    d.actions.find? name = some act ∨ ∃ v, (name, v) ∈ entries ∧ act = buildAction v.asDict
  | [], _, found => .inl found
  | np :: entries, d, found => by
    rw [List.foldl_cons] at found
    rcases find?_loadActions found with before | ⟨v, member, built⟩
    · rw [loadAction] at before
      split at before
      · rw [OrderedMap.find?_set] at before
        split at before
        · rename_i same
          cases same
          exact .inr ⟨np.2, List.mem_cons_self, (Option.some.inj before).symm⟩
        · exact .inl before
      · exact .inl before
    · exact .inr ⟨v, List.mem_cons_of_mem np member, built⟩

/-- `method` was built from the entry `group` of `methods`. -/
inductive MethodOf (group : TwValue F) : TwMethodFn F → Prop where
  | scan {scan : Dict F} (h : group.asDict.lookup "scan" = some (.dict scan)) :
      MethodOf group (buildScanMethod scan)
  | alternative {alts : List (TwValue F)} {alt : TwValue F}
      (h : group.asDict.lookup "alternatives" = some (.array alts)) (member : alt ∈ alts) :
      MethodOf group (buildMethodAlt (getArr group.asDict "params") alt.asDict)

theorem find?_loadMethods {methods : List (TwMethodFn F)} :
    ∀ {entries : Dict F} {d : TwDomain F},
    (entries.foldl loadMethod d).taskMethods.find? name = some methods →
    d.taskMethods.find? name = some methods ∨ ∃ v, (name, v) ∈ entries ∧ ∀ method ∈ methods, MethodOf v method
  | [], _, found => .inl found
  | np :: entries, d, found => by
    rw [List.foldl_cons] at found
    rcases find?_loadMethods found with before | ⟨v, member, built⟩
    · rw [loadMethod] at before
      split at before
      · split at before
        · rename_i scan hscan
          rw [OrderedMap.find?_set] at before
          split at before
          · rename_i same
            cases same
            obtain rfl := Option.some.inj before
            refine .inr ⟨np.2, List.mem_cons_self, fun method hm => ?_⟩
            obtain rfl := List.mem_singleton.mp hm
            exact .scan hscan
          · exact .inl before
        · rename_i alts halts noScan
          rw [OrderedMap.find?_set] at before
          split at before
          · rename_i same
            cases same
            obtain rfl := Option.some.inj before
            refine .inr ⟨np.2, List.mem_cons_self, fun method hm => ?_⟩
            obtain ⟨alt, halt, rfl⟩ := List.mem_map.mp hm
            exact .alternative halts (List.mem_filter.mp halt).1
          · exact .inl before
        · exact .inl before
      · exact .inl before
    · exact .inr ⟨v, List.mem_cons_of_mem np member, built⟩

theorem action_of_document {act : TwActionFn F} (found : (loadCallables kvs).actions.find? name = some act) :
    ∃ v, (name, v) ∈ ((kvs.lookup "actions").getD .nil).asDict ∧ act = buildAction v.asDict := by
  rw [loadCallables, actions_loadMethods] at found
  rcases find?_loadActions found with none | built
  · cases none
  · exact built

theorem methods_of_document {methods : List (TwMethodFn F)}
    (found : (loadCallables kvs).taskMethods.find? name = some methods) :
    ∃ v, (name, v) ∈ ((kvs.lookup "methods").getD .nil).asDict ∧ ∀ method ∈ methods, MethodOf v method := by
  rw [loadCallables] at found
  rcases find?_loadMethods found with none | built
  · rw [taskMethods_loadActions] at none
    cases none
  · exact built

/-! ### What they do -/

/-- `P` is kept by the write that the step stands for, if it is a write. -/
def KeptBy (P : TwState F → Prop) (params : Params F) (step : TwValue F) : Prop :=
  ∀ ptr, step.asDict.lookup "pointer/set" = some ptr →
    ∀ s key val, P s → P (s.setNested (parsePointer ptr.asString params).1 key val)

theorem runStep_keeps {step : TwValue F} (kept : KeptBy P params step) {s' : TwState F}
    (ran : runStep params s step = some s') (hs : P s) : P s' := by
  rw [runStep] at ran
  cases guard : step.asDict.lookup "eval" with
  | some expr =>
    simp only [guard] at ran
    split at ran
    · cases ran
      exact hs
    · cases ran
  | none =>
    cases write : step.asDict.lookup "pointer/set" with
    | none => simp only [guard, write, reduceCtorEq] at ran
    | some ptr =>
      simp only [guard, write] at ran
      split at ran
      · cases ran
      · obtain ⟨expr, -, rfl⟩ := Option.map_eq_some_iff.mp ran
        exact kept ptr write s _ _ hs

/-- What every write of a body keeps is kept by the body. -/
theorem runBody_keeps : ∀ {body : List (TwValue F)},
    (∀ step ∈ body, KeptBy P params step) → ∀ {s s' : TwState F}, runBody params body s = some s' → P s → P s'
  | [], _, s, s', ran, hs => by
    cases ran
    exact hs
  | step :: body, kept, s, s', ran, hs => by
    obtain ⟨mid, stepped, rest⟩ := Option.bind_eq_some_iff.mp ran
    have keptMid := runStep_keeps (kept step List.mem_cons_self) stepped hs
    exact runBody_keeps (fun later member => kept later (List.mem_cons_of_mem step member)) rest keptMid

theorem bindings_expandSubtasks {defs : List (TwValue F)} : ∀ t ∈ expandSubtasks defs params, t.bindings = [] := by
  intro t member
  obtain ⟨d, -, hd⟩ := List.mem_filterMap.mp member
  rw [expandSubtask] at hd
  split at hd
  · cases hd
  · cases hd
    rfl

/-- Where the tasks come from that a scan returns: from a branch at a key, from its `recurse`, or from the subtasks
    behind its last key. -/
theorem mem_of_buildScanMethod {scan : Dict F} (applied : buildScanMethod scan s args = some subs)
    (member : t ∈ subs) :
    (∃ br ∈ getArr scan "branches", ∃ kv ∈ (s.getVar ((scan.lookup "over").getD .nil).asString).asDict,
      t ∈ expandSubtasks (getArr br.asDict "subtasks")
        (runBinds (getArr br.asDict "bind") (OrderedMap.empty.set "_key" (.string kv.1)) s)) ∨
    (((scan.lookup "recurse").getD .nil).asString ≠ "" ∧
      t = .call ⟨((scan.lookup "recurse").getD .nil).asString, []⟩) ∨
    t ∈ expandSubtasks (getArr scan "done_subtasks") .empty := by
  rw [buildScanMethod] at applied
  split at applied
  · rename_i branch
    obtain rfl := Option.some.inj applied
    obtain ⟨entries, isBranch, atKeys⟩ := List.exists_of_findSome?_eq_some branch
    obtain ⟨key, isKey, atKey⟩ := List.exists_of_findSome?_eq_some atKeys
    obtain ⟨br, listed, rfl⟩ := List.mem_map.mp isBranch
    obtain ⟨kv, entry, rfl⟩ := List.mem_map.mp isKey
    have inBranches := (List.mem_filter.mp listed).1
    rw [scanBranch] at atKey
    dsimp only at atKey
    split at atKey
    · cases atKey
      split at member
      · exact .inl ⟨br, inBranches, kv, entry, member⟩
      · rename_i recurses
        rcases List.mem_append.mp member with member | member
        · exact .inl ⟨br, inBranches, kv, entry, member⟩
        · exact .inr (.inl ⟨recurses, List.mem_singleton.mp member⟩)
    · cases atKey
  · split at applied
    · cases applied
      exact .inr (.inr member)
    · cases applied

theorem mem_of_buildMethodAlt {names : List (TwValue F)} {alt : Dict F}
    (applied : buildMethodAlt names alt s args = some subs) (member : t ∈ subs) :
    t ∈ expandSubtasks (getArr alt "subtasks") (runBinds (getArr alt "bind") (buildParams names args) s) := by
  rw [buildMethodAlt] at applied
  split at applied
  · cases applied
    exact member
  · cases applied

theorem bindings_of_methodOf {group : TwValue F} {method : TwMethodFn F} (built : MethodOf group method)
    (h : method s args = some subs) : ∀ t ∈ subs, t.bindings = [] := by
  intro t member
  cases built with
  | scan =>
    rcases mem_of_buildScanMethod h member with ⟨br, -, kv, -, member⟩ | ⟨-, rfl⟩ | member
    · exact bindings_expandSubtasks t member
    · rfl
    · exact bindings_expandSubtasks t member
  | alternative => exact bindings_expandSubtasks t (mem_of_buildMethodAlt h member)

theorem closed_loadCallables (set : ∀ s var key val, P s → P (s.setNested var key val)) :
    Closed (loadCallables kvs) P where
  action found acted hs := by
    obtain ⟨np, -, rfl⟩ := action_of_document found
    exact runBody_keeps (fun step _ ptr _ s key val => set s _ key val) acted hs
  method found member applied := by
    obtain ⟨np, -, built⟩ := methods_of_document found
    exact bindings_of_methodOf (built _ member) applied

end WeftWarp
