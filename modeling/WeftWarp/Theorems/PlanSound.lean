import WeftWarp.Replan
import WeftWarp.Theorems.SeekRefines

/-! # Soundness of the planner

What `tw_plan` returns is a decomposition of its task list, and a decomposition runs through in the simulation.
The fail cache only takes branches away, so no assumption on its keys is needed. -/

namespace WeftWarp

variable {F : Type} [Cxx F] {d : TwDomain F}

/-! ### Simulation -/

variable {plan : List (TwCall F)} {s : TwState F} {tasks : List (TwTask F)}

/-- The simulation of the actions of a run completes in the state the run ends in. -/
theorem simulateFrom_of_run {x y : Config F} (h : Run (Step d) x plan y) (i : Nat) :
    simulateFrom d i x.1 plan = ⟨i + plan.length, -1, "", y.1⟩ := by
  induction h generalizing i with
  | refl x => simp [simulateFrom]
  | @step x y z l q hstep _ ih =>
    cases hstep with
    | act ha hs =>
      simp only [Option.toList, List.singleton_append, simulateFrom, ha, hs, ih, List.length_cons]
      congr 1
      omega
    | task => exact ih i
    | goalMet => exact ih i
    | goalVia => exact ih i
    | multiMet => exact ih i
    | multiVia => exact ih i

theorem twSimulate_of_run {x y : Config F} (h : Run (Step d) x plan y) :
    twSimulate x.1 plan d = ⟨plan.length, -1, "", y.1⟩ := by
  rw [twSimulate, simulateFrom_of_run h]
  simp

/-! ### Plans -/

variable {bl : TwBlacklist}

theorem solves_of_twSeekPlan {on : Bool} {fuel : Nat} {memo memo' : TwMemo F} {C : List TwMemoKey}
    (hC : Carries on memo C) (h : twSeekPlan d bl fuel s tasks memo = .ok (some plan, memo')) :
    Solves (seekExpand d bl) (s, tasks) plan := by
  have hm : Mirrors on (twSeekPlan d bl fuel s tasks memo) _ := twSeekPlan_mirrors fuel s tasks hC
  rw [h] at hm
  generalize hr : memoSearch (seekExpand d bl) .atChoice (seekPolicy on) fuel (s, tasks) C = r at hm
  cases hm with
  | found q memo C' => exact memoSearch_sound hr

theorem twPlan_eq_some (h : twPlan s tasks d bl = .ok (some plan)) :
    ∃ memo, twSeekPlan d bl twMaxDepth s tasks .fresh = .ok (some plan, memo) := by
  rw [twPlan] at h
  cases hr : twSeekPlan d bl twMaxDepth s tasks .fresh with
  | error e => simp [hr, Except.map] at h
  | ok r =>
    obtain ⟨_ | q, memo⟩ := r
    · simp [hr, Except.map] at h
    · simp only [hr, Except.map, Except.ok.injEq, Option.some.injEq] at h
      exact ⟨memo, by rw [h]⟩

theorem tree_of_twPlan (h : twPlan s tasks d bl = .ok (some plan)) :
    Solves (treeExpand d bl .empty) (s, tasks) plan := by
  obtain ⟨memo, h⟩ := twPlan_eq_some h
  exact tree_of_guarded (seekSolves_iff.mp (solves_of_twSeekPlan carries_fresh h))

/-- A plan of `tw_plan` runs through from the initial state and is a decomposition of the task list. -/
theorem twPlan_sound (d : TwDomain F) (s : TwState F) (tasks : List (TwTask F)) (bl : TwBlacklist)
    {plan : List (TwCall F)} (h : twPlan s tasks d bl = .ok (some plan)) :
    ((twSimulate s plan d).completedSteps = plan.length ∧ (twSimulate s plan d).failStep = -1) ∧
      Decomposes d s tasks plan := by
  obtain ⟨t, hrun⟩ := decomposes_of_solves (tree_of_twPlan h)
  rw [twSimulate_of_run hrun]
  exact ⟨⟨rfl, rfl⟩, t, hrun⟩

/-- A lamp with one action that switches it on and one method for the goal to have it on. -/
def lampDomain : TwDomain Int where
  actions := OrderedMap.empty.set "flip" fun s args => some (s.setNested "lamp" (args.headD .nil) (.bool true))
  taskMethods := OrderedMap.empty.set "lamp" [fun _ args => some [.call ⟨"flip", args.take 1⟩]]
  actionDurations := .empty

theorem twPlan_sound_lamp :
    Decomposes lampDomain .empty [.goal ⟨[⟨"lamp", "hall", .bool true⟩]⟩] [⟨"flip", [.string "hall"]⟩] :=
  (twPlan_sound lampDomain .empty _ [] (by decide +kernel)).2

end WeftWarp
