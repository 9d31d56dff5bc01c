import WeftWarp.Domain
import WeftWarp.Lib.Run

/-! # What a plan is

The decompositions of a task list, independent of any search. A configuration is a state and the tasks left in
it. An action takes effect, a task is replaced by the subtasks that one of its methods returns in the present
state, and a goal leaves the list only when it is satisfied; until then a method of an unmet binding may put
subtasks in front of it. -/

namespace WeftWarp

variable {F : Type} [Cxx F]

/-- A state and the tasks left in it. -/
abbrev Config (F : Type) := TwState F × List (TwTask F)

/-- One step of a decomposition; an action is its label. -/
inductive Step (d : TwDomain F) : Config F → Option (TwCall F) → Config F → Prop where
  | act {s s' : TwState F} {c : TwCall F} {rest : List (TwTask F)} {action : TwActionFn F}
      (ha : d.actions.find? c.name = some action) (hs : action s c.args = some s') :
      Step d (s, .call c :: rest) (some c) (s', rest)
  | task {s : TwState F} {c : TwCall F} {rest subs : List (TwTask F)} {methods : List (TwMethodFn F)}
      {method : TwMethodFn F} (ha : d.actions.find? c.name = none) (hm : d.taskMethods.find? c.name = some methods)
      (hmem : method ∈ methods) (hsubs : method s c.args = some subs) :
      Step d (s, .call c :: rest) none (s, subs ++ rest)
  | goalMet {s : TwState F} {g : TwGoal F} {rest : List (TwTask F)} (h : g.isSatisfied s = .ok true) :
      Step d (s, .goal g :: rest) none (s, rest)
  | goalVia {s : TwState F} {g : TwGoal F} {rest subs : List (TwTask F)} {b : TwGoalBinding F}
      {unmet : List (TwGoalBinding F)} {methods : List (TwMethodFn F)} {method : TwMethodFn F}
      (hu : g.unsatisfied s = .ok (b :: unmet)) (hm : d.taskMethods.find? b.var = some methods)
      (hmem : method ∈ methods) (hsubs : method s [.string b.key, b.desired] = some subs) :
      Step d (s, .goal g :: rest) none (s, subs ++ .goal g :: rest)
  | multiMet {s : TwState F} {mg : TwMultiGoal F} {rest : List (TwTask F)} (h : mg.isSatisfied s = .ok true) :
      Step d (s, .multiGoal mg :: rest) none (s, rest)
  | multiVia {s : TwState F} {mg : TwMultiGoal F} {rest : List (TwTask F)} {b : TwGoalBinding F}
      {unmet : List (TwGoalBinding F)} (hu : mg.unsatisfied s = .ok unmet) (hb : b ∈ unmet) :
      Step d (s, .multiGoal mg :: rest) none (s, .goal ⟨[b]⟩ :: .multiGoal mg :: rest)

/-- The actions of a decomposition that works off the whole list. -/
def Decomposes (d : TwDomain F) (s : TwState F) (tasks : List (TwTask F)) (plan : List (TwCall F)) : Prop :=
  ∃ t, Run (Step d) (s, tasks) plan (t, [])

/-! ### Invocations -/

/-- An action or a method of a name with the arguments it gets. -/
inductive Invocation (F : Type) where
  | action (name : String) (args : List (TwValue F))
  | method (name : String) (args : List (TwValue F))

/-- What the planner may invoke at a configuration: the action of a call, or else its methods, and at a goal the
    methods of the first binding that is not met. -/
inductive Invokes (d : TwDomain F) : Config F → Invocation F → Prop where
  | act {s : TwState F} {c : TwCall F} {rest : List (TwTask F)} {action : TwActionFn F}
      (ha : d.actions.find? c.name = some action) : Invokes d (s, .call c :: rest) (.action c.name c.args)
  | task {s : TwState F} {c : TwCall F} {rest : List (TwTask F)} {methods : List (TwMethodFn F)}
      (ha : d.actions.find? c.name = none) (hm : d.taskMethods.find? c.name = some methods) :
      Invokes d (s, .call c :: rest) (.method c.name c.args)
  | goal {s : TwState F} {g : TwGoal F} {rest : List (TwTask F)} {b : TwGoalBinding F}
      {unmet : List (TwGoalBinding F)} {methods : List (TwMethodFn F)} (hu : g.unsatisfied s = .ok (b :: unmet))
      (hm : d.taskMethods.find? b.var = some methods) :
      Invokes d (s, .goal g :: rest) (.method b.var [.string b.key, b.desired])

/-! ### Execution -/

omit [Cxx F] in
/-- The state behind a list of calls, each of which is to an action that applies. -/
def execute (d : TwDomain F) : TwState F → List (TwCall F) → Option (TwState F)
  | s, [] => some s
  | s, c :: calls =>
    (d.actions.find? c.name).bind fun action => (action s c.args).bind fun s' => execute d s' calls

variable {c : TwCall F} {calls plan : List (TwCall F)} {t : TwState F}

omit [Cxx F] in
theorem execute_cons_eq_some {d : TwDomain F} {s : TwState F} :
    execute d s (c :: calls) = some t ↔
      ∃ action s', d.actions.find? c.name = some action ∧ action s c.args = some s' ∧ execute d s' calls = some t := by
  rw [execute]
  simp only [Option.bind_eq_some_iff]
  constructor
  · rintro ⟨action, ha, s', hs, rest⟩
    exact ⟨action, s', ha, hs, rest⟩
  · rintro ⟨action, s', ha, hs, rest⟩
    exact ⟨action, ha, s', hs, rest⟩

theorem run_of_execute {d : TwDomain F} {s : TwState F} (rest : List (TwTask F))
    (applies : execute d s calls = some t) : Run (Step d) (s, calls.map .call ++ rest) calls (t, rest) := by
  induction calls generalizing s with
  | nil =>
    obtain rfl := Option.some.inj applies
    exact .refl _
  | cons c calls ih =>
    obtain ⟨action, s', ha, hs, applies⟩ := execute_cons_eq_some.mp applies
    exact .label (.act ha hs) (ih applies)

theorem execute_of_run {d : TwDomain F} {x y : Config F} (run : Run (Step d) x calls y) :
    execute d x.1 calls = some y.1 := by
  induction run with
  | refl x => rfl
  | step step _ ih =>
    cases step with
    | act ha hs => exact execute_cons_eq_some.mpr ⟨_, _, ha, hs, ih⟩
    | _ => exact ih

omit [Cxx F] in
theorem hasAction_of_execute {d : TwDomain F} {s : TwState F} (applies : execute d s calls = some t) :
    ∀ c ∈ calls, d.hasAction c.name = true := by
  induction calls generalizing s with
  | nil => exact fun c mem => nomatch mem
  | cons c calls ih =>
    obtain ⟨action, s', ha, -, applies⟩ := execute_cons_eq_some.mp applies
    exact List.forall_mem_cons.mpr ⟨by rw [TwDomain.hasAction, ha]; rfl, ih applies⟩

/-! ### Inversion -/

variable {d : TwDomain F} {s : TwState F} {tasks : List (TwTask F)}

theorem Decomposes.act_inv {action : TwActionFn F} (ha : d.actions.find? c.name = some action)
    (h : Decomposes d s (.call c :: tasks) plan) :
    ∃ s' q, action s c.args = some s' ∧ plan = c :: q ∧ Decomposes d s' tasks q := by
  obtain ⟨t, hrun⟩ := h
  cases hrun with
  | step hstep hrest =>
    cases hstep with
    | act ha' hs =>
      obtain rfl := Option.some.inj (ha.symm.trans ha')
      exact ⟨_, _, hs, rfl, t, hrest⟩
    | task ha' => simp [ha] at ha'

theorem Decomposes.task_inv {methods : List (TwMethodFn F)} (ha : d.actions.find? c.name = none)
    (hm : d.taskMethods.find? c.name = some methods) (h : Decomposes d s (.call c :: tasks) plan) :
    ∃ method ∈ methods, ∃ subs, method s c.args = some subs ∧ Decomposes d s (subs ++ tasks) plan := by
  obtain ⟨t, hrun⟩ := h
  cases hrun with
  | step hstep hrest =>
    cases hstep with
    | act ha' => simp [ha] at ha'
    | task _ hm' hmem hsubs =>
      obtain rfl := Option.some.inj (hm.symm.trans hm')
      exact ⟨_, hmem, _, hsubs, t, hrest⟩

end WeftWarp
