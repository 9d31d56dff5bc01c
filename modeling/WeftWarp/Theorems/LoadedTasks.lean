import WeftWarp.Theorems.LoadedDomain
import WeftWarp.Theorems.PointerCoding

/-! # Loaded tasks

Each item of `todo_list` becomes one task or fails the load, but the entries of a goal and the variables of a multigoal
are passed over if they have not the shape that is read. -/

namespace WeftWarp
open TwLoader

/-! ## Entries of goals -/

section Pointer
variable {F : Type}

theorem fillFrom_empty {render : TwValue F → String} (read : Option (List Char)) (cs : List Char) :
    fillFrom (.empty : Params F) render read cs = (read.elim [] ('\x7b' :: ·)) ++ cs := by
  induction cs generalizing read with
  | nil => cases read <;> simp [fillFrom]
  | cons c cs ih =>
    cases read with
    | none =>
      rw [fillFrom, ih, ih]
      split
      · rename_i brace
        rw [brace]
        rfl
      · rfl
    | some name =>
      rw [fillFrom, ih, ih]
      split
      · rename_i brace
        simp [brace]
      · simp

variable [Cxx F]

theorem substitutePointer_empty (ptr : String) : substitutePointer ptr (.empty : Params F) = ptr := by
  rw [substitutePointer, fillFrom_empty]
  exact String.ofList_toList

/-- A pointer has a variable exactly if it is written for two tokens of which the first is not empty. -/
theorem parsePointer_eq_iff {ptr var : String} {key : TwValue F} (some : var ≠ "") :
    parsePointer ptr (.empty : Params F) = (var, key) ↔ ∃ k, key = .string k ∧ ptr = pointerOf [var, k] := by
  unfold parsePointer
  rw [substitutePointer_empty]
  constructor
  · intro parsed
    split at parsed
    · rename_i v k tokens
      cases parsed
      refine ⟨k, rfl, ?_⟩
      rw [← tokens]
      exact (pointerOf_parseRfc6901 (tokens ▸ List.cons_ne_nil _ _)).symm
    · cases parsed
      exact absurd rfl some
  · rintro ⟨k, rfl, rfl⟩
    rw [parseRfc6901_pointerOf (List.cons_ne_nil _ _)]

end Pointer

variable {F : Type} [CxxMath F]

/-- The binding that an entry of a goal stands for. -/
def EntryBinding (entry : TwValue F) (b : TwGoalBinding F) : Prop :=
  ∃ ed, entry = .dict ed ∧ ed.lookup "pointer" = some (.string (pointerOf [b.var, b.key])) ∧ b.var ≠ "" ∧
    ed.lookup "eq" = some b.desired

theorem goalBinding_eq_iff (entry : TwValue F) (b : TwGoalBinding F) :
    goalBinding entry = some b ↔ EntryBinding entry b := by
  constructor
  · intro made
    unfold goalBinding at made
    split at made
    · rename_i ptr desired pointed isEq
      generalize parsed : parsePointer ptr.asString (.empty : Params F) = result at made
      obtain ⟨var, key⟩ := result
      dsimp only at made
      split at made
      · cases made
      · rename_i some
        obtain ⟨k, rfl, written⟩ := (parsePointer_eq_iff some).mp parsed
        cases made
        have isText : ptr = .string (pointerOf [var, k]) := by
          cases ptr with
          | string s => exact congrArg TwValue.string written
          | _ => exact absurd (congrArg String.toList written) (by simp [TwValue.asString, toList_pointerOf])
        cases entry with
        | dict ed => exact ⟨ed, rfl, isText ▸ pointed, some, isEq⟩
        | _ => cases pointed
    · cases made
  · rintro ⟨ed, rfl, pointed, some, isEq⟩
    have parsed := (parsePointer_eq_iff (F := F) some).mpr ⟨b.key, rfl, rfl⟩
    unfold goalBinding
    simp only [TwValue.asDict, pointed, isEq, TwValue.asString, parsed, if_neg some]
    rfl

/-! ## Items -/

/-- The bindings of a variable of a multigoal. -/
def VariableBindings (vp : String × TwValue F) (bindings : List (TwGoalBinding F)) : Prop :=
  ∃ kvs, vp.2 = .dict kvs ∧ bindings = kvs.map fun kp => ⟨vp.1, kp.1, kp.2⟩

/-- Nothing of an item is lost in its task: a call has its name, and there is a binding for each entry of a goal, and the bindings of each
    variable of a multigoal. -/
inductive Kept : TwValue F → TwTask F → Prop
  | call (name : String) (args : List (TwValue F)) : Kept (.array (.string name :: args)) (.call ⟨name, args⟩)
  | goal {td : Dict F} {g : List (TwValue F)} {bindings : List (TwGoalBinding F)} :
    td.lookup "goal" = some (.array g) → (∀ mg, td.lookup "multigoal" ≠ some (.dict mg)) →
    List.Forall₂ EntryBinding g bindings → Kept (.dict td) (.goal ⟨bindings⟩)
  | multiGoal {td mg : Dict F} {groups : List (List (TwGoalBinding F))} :
    td.lookup "multigoal" = some (.dict mg) → (∀ g, td.lookup "goal" ≠ some (.array g)) →
    List.Forall₂ VariableBindings mg groups → Kept (.dict td) (.multiGoal ⟨groups.flatten⟩)

/-- A call whose name is a text, or an object that is not a goal and a multigoal at once; each entry of a goal has a
    pointer to a variable and a key and a value, and each variable of a multigoal has an object. -/
def WellShaped (item : TwValue F) : Prop :=
  (∀ name args, item = .array (name :: args) → name.isString = true) ∧
  ∀ td, item = .dict td →
    (∀ mg, td.lookup "multigoal" = some (.dict mg) →
      (∀ g, td.lookup "goal" ≠ some (.array g)) ∧ ∀ vp ∈ mg, ∃ kvs, vp.2 = .dict kvs) ∧
    ∀ g, td.lookup "goal" = some (.array g) → ∀ entry ∈ g, ∃ b, EntryBinding entry b

theorem forall₂_entryBinding {g : List (TwValue F)} (bound : ∀ entry ∈ g, ∃ b, EntryBinding entry b) :
    List.Forall₂ EntryBinding g (g.filterMap goalBinding) := by
  induction g with
  | nil => exact .nil
  | cons entry g ih =>
    obtain ⟨⟨b, here⟩, rest⟩ := List.forall_mem_cons.mp bound
    rw [List.filterMap_cons_some ((goalBinding_eq_iff entry b).mpr here)]
    exact .cons here (ih rest)

omit [CxxMath F] in
theorem multiGoalBindings_of_dict {vp : String × TwValue F} (isDict : ∃ kvs, vp.2 = .dict kvs) :
    VariableBindings vp (multiGoalBindings vp) := by
  obtain ⟨kvs, same⟩ := isDict
  refine ⟨kvs, same, ?_⟩
  rw [multiGoalBindings, same]
  rfl

theorem kept_of_wellShaped {item : TwValue F} {t : TwTask F} (loaded : loadTask item = some t)
    (wellShaped : WellShaped item) : Kept item t := by
  obtain ⟨td, mg, rfl, isMultiGoal, rfl⟩ | ⟨td, g, rfl, isGoal, rfl⟩ | ⟨name, args, rfl, rfl⟩ := loadTask_cases loaded
  · obtain ⟨notGoal, dicts⟩ := (wellShaped.2 td rfl).1 mg isMultiGoal
    rw [List.flatMap_def]
    exact .multiGoal isMultiGoal notGoal (List.forall₂_map_right_iff.mpr
      (List.forall₂_same.mpr fun vp mem => multiGoalBindings_of_dict (dicts vp mem)))
  · refine .goal isGoal (fun mg isMultiGoal => ?_) (forall₂_entryBinding ((wellShaped.2 td rfl).2 g isGoal))
    exact ((wellShaped.2 td rfl).1 mg isMultiGoal).1 g isGoal
  · cases name with
    | string name => exact .call name args
    | _ => cases wellShaped.1 _ args rfl

theorem exists_of_forall₂ {α β : Type} {R : α → β → Prop} {as : List α} {bs : List β} (related : List.Forall₂ R as bs) :
    ∀ a ∈ as, ∃ b, R a b := by
  induction related with
  | nil => exact List.forall_mem_nil _
  | cons here _ ih => exact List.forall_mem_cons.mpr ⟨⟨_, here⟩, ih⟩

omit [CxxMath F] in
theorem wellShaped_of_kept {item : TwValue F} {t : TwTask F} (kept : Kept item t) : WellShaped item := by
  refine ⟨?_, ?_⟩
  · rintro name args rfl
    cases kept
    rfl
  rintro td rfl
  cases kept with
  | goal isGoal notMultiGoal bound =>
    refine ⟨fun mg isMultiGoal => absurd isMultiGoal (notMultiGoal mg), fun g isArray => ?_⟩
    rw [isGoal] at isArray
    cases isArray
    exact exists_of_forall₂ bound
  | multiGoal isMultiGoal notGoal bound =>
    refine ⟨fun mg isDict => ⟨notGoal, ?_⟩, fun g isArray => absurd isArray (notGoal g)⟩
    rw [isMultiGoal] at isDict
    cases isDict
    intro vp mem
    obtain ⟨bindings, kvs, same, -⟩ := exists_of_forall₂ bound vp mem
    exact ⟨kvs, same⟩

/-! ## The list of tasks -/

theorem forall₂_of_mapM {α β : Type} {f : α → Option β} {as : List α} {bs : List β} (made : as.mapM f = some bs) :
    List.Forall₂ (fun a b => f a = some b) as bs := by
  induction as generalizing bs with
  | nil =>
    cases made
    exact .nil
  | cons a as ih =>
    rw [List.mapM_cons] at made
    obtain ⟨b, here, rest⟩ := Option.bind_eq_some_iff.mp made
    obtain ⟨bs, there, same⟩ := Option.bind_eq_some_iff.mp rest
    cases same
    exact .cons here (ih there)

theorem forall₂_kept_iff {items : List (TwValue F)} {tasks : List (TwTask F)}
    (loaded : List.Forall₂ (fun item t => loadTask item = some t) items tasks) :
    List.Forall₂ Kept items tasks ↔ ∀ item ∈ items, WellShaped item := by
  induction loaded with
  | nil => simp
  | cons here _ ih =>
    rw [List.forall₂_cons, List.forall_mem_cons, ih]
    exact and_congr_left fun _ => ⟨wellShaped_of_kept, kept_of_wellShaped here⟩

/-- The items of a `todo_list`; none where it is of a type that has no items. -/
def todoItems : Option (TwValue F) → Option (List (TwValue F))
  | none | some .nil => some []
  | some (.array items) => some items
  | some _ => none

omit [CxxMath F] in
theorem getArr_of_todoItems {d items : List _} {key : String} (todo : todoItems (F := F) (d.lookup key) = some items) :
    getArr d key = items := by
  rw [getArr]
  cases found : d.lookup key with
  | none =>
    rw [found] at todo
    cases todo
    rfl
  | some v =>
    rw [found] at todo
    cases v <;> cases todo <;> rfl

/-- Of a document that is loaded, the tasks are the items of `todo_list` in their order with nothing left out, exactly if
    it is a list, if it is there, and each item has the shape that is read. -/
theorem loadDomain_keeps_iff (data : TwValue F) (l : TwLoaded F) (accepted : loadDomain data = some l) :
    (∃ items, todoItems (data.asDict.lookup "todo_list") = some items ∧ List.Forall₂ Kept items l.tasks) ↔
      ∃ items, todoItems (data.asDict.lookup "todo_list") = some items ∧ ∀ item ∈ items, WellShaped item := by
  obtain ⟨kvs, rfl, -, -, tasks⟩ := loadDomain_eq_some accepted
  refine exists_congr fun items => and_congr_right fun todo => ?_
  rw [← getArr_of_todoItems todo]
  exact forall₂_kept_iff (forall₂_of_mapM tasks)

/-- An entry of a goal. -/
def entryValue (pointer : String) (desired : Int64) : TwValue Int :=
  .dict [("pointer", .string pointer), ("eq", .int desired)]

/-- A call, a goal and a multigoal. -/
def todoDoc : TwValue Int :=
  .dict [("todo_list", .array [.array [.string "go", .string "a"], .dict [("goal", .array [entryValue "/pos/a" 1])],
    .dict [("multigoal", .dict [("pos", .dict [("a", .int 2)])])]])]

theorem loadDomain_keeps_errand :
    ∃ l items, loadDomain todoDoc = some l ∧ todoItems (todoDoc.asDict.lookup "todo_list") = some items ∧
      List.Forall₂ Kept items l.tasks := by
  have loads : (loadDomain todoDoc).isSome = true := by decide +kernel
  obtain ⟨l, accepted⟩ := Option.isSome_iff_exists.mp loads
  suffices shaped : ∃ items, todoItems (todoDoc.asDict.lookup "todo_list") = some items ∧ ∀ item ∈ items, WellShaped item by
    obtain ⟨items, todo, kept⟩ := (loadDomain_keeps_iff todoDoc l accepted).mpr shaped
    exact ⟨l, items, accepted, todo, kept⟩
  refine ⟨_, rfl, List.forall_mem_cons.mpr ⟨⟨?_, ?_⟩, List.forall_mem_cons.mpr ⟨⟨?_, ?_⟩,
    List.forall_mem_singleton.mpr ⟨?_, ?_⟩⟩⟩⟩
  · rintro name args ⟨⟩
    rfl
  · rintro td ⟨⟩
  · rintro name args ⟨⟩
  · rintro td ⟨⟩
    refine ⟨fun mg isMultiGoal => (by cases isMultiGoal), ?_⟩
    rintro g ⟨⟩
    refine List.forall_mem_singleton.mpr ⟨⟨"pos", "a", .int 1⟩, _, rfl, ?_, by decide, rfl⟩
    decide +kernel
  · rintro name args ⟨⟩
  · rintro td ⟨⟩
    refine ⟨?_, fun g isGoal => (by cases isGoal)⟩
    rintro mg ⟨⟩
    exact ⟨fun g isGoal => (by cases isGoal), List.forall_mem_singleton.mpr ⟨_, rfl⟩⟩

/-- A goal of two entries. -/
def corridorDoc : TwValue Int :=
  .dict [("todo_list", .array [.dict [("goal", .array [entryValue "/pos/a" 1, entryValue "/pos/a/b" 2])]])]

/-- The pointer of the second entry has three tokens; the entry is passed over and the goal is loaded without it. -/
theorem loadDomain_drops_entry :
    (loadDomain corridorDoc).map TwLoaded.tasks = some [.goal ⟨[⟨"pos", "a", .int 1⟩]⟩] ∧
      ¬List.Forall₂ Kept (getArr corridorDoc.asDict "todo_list") [.goal ⟨[⟨"pos", "a", .int 1⟩]⟩] := by
  refine ⟨by decide +kernel, fun kept => ?_⟩
  obtain ⟨here, -⟩ := List.forall₂_cons.mp kept
  generalize task : TwTask.goal ⟨[⟨"pos", "a", .int 1⟩]⟩ = t at here
  cases here with
  | goal isGoal _ bound =>
    cases isGoal
    cases task
    cases bound.length_eq
  | multiGoal => cases task

end WeftWarp
