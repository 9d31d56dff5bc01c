import WeftWarp.Theorems.Exclusion

/-! # The report of a replanning

`tw_simulate` stops where its report says. `tw_replan` runs the steps before a given `fail_step` in the same way, but it
reports them as completed whether or not the run came that far. -/

namespace WeftWarp

variable {F : Type} {d : TwDomain F} {s : TwState F} {plan : List (TwCall F)}

/-- The state of the report is the one behind the steps that it counts, and all of them apply. -/
def Truthful (d : TwDomain F) (s : TwState F) (plan : List (TwCall F)) (sim : TwSimulateResult F) : Prop :=
  ∃ n : Nat, sim.completedSteps = n ∧ n ≤ plan.length ∧ execute d s (plan.take n) = some sim.state

theorem simulateFrom_executes (i : Nat) (s : TwState F) (plan : List (TwCall F)) :
    ∃ n : Nat, (simulateFrom d i s plan).completedSteps = i + n ∧ n ≤ plan.length ∧
      execute d s (plan.take n) = some (simulateFrom d i s plan).state := by
  induction plan generalizing i s with
  | nil => exact ⟨0, (Int.add_zero _).symm, Nat.le_refl 0, rfl⟩
  | cons c plan ih =>
    -- The loop stops in front of the step, or it takes it and goes on.
    have stops : ∃ n : Nat, (⟨i, i, c.name, s⟩ : TwSimulateResult F).completedSteps = i + n ∧ n ≤ (c :: plan).length ∧
        execute d s ((c :: plan).take n) = some s := ⟨0, (Int.add_zero _).symm, Nat.zero_le _, rfl⟩
    rw [simulateFrom]
    cases ha : d.actions.find? c.name with
    | none => exact stops
    | some action =>
      dsimp only
      cases hs : action s c.args with
      | none => exact stops
      | some next =>
        obtain ⟨n, completed, inside, reached⟩ := ih (i + 1) next
        refine ⟨n + 1, ?_, Nat.succ_le_succ inside, ?_⟩
        · rw [completed]
          omega
        · exact execute_cons_eq_some.mpr ⟨action, next, ha, hs, reached⟩

theorem twSimulate_truthful (d : TwDomain F) (s : TwState F) (plan : List (TwCall F)) :
    Truthful d s plan (twSimulate s plan d) := by
  obtain ⟨n, completed, inside, reached⟩ := simulateFrom_executes (d := d) 0 s plan
  exact ⟨n, completed.trans (Int.zero_add _), inside, reached⟩

theorem simulateTo_truthful_iff [Cxx F] (d : TwDomain F) (s : TwState F) (plan : List (TwCall F)) (failStep : Int) :
    Truthful d s plan (simulateTo s plan d failStep) ↔
      failStep < 0 ∨ plan.length ≤ failStep ∨ (execute d s (plan.take failStep.toNat)).isSome = true := by
  rw [simulateTo]
  split
  · rename_i given
    cases step : plan[failStep.toNat]? with
    | none =>
      have beyond := List.getElem?_eq_none_iff.mp step
      exact iff_of_true (twSimulate_truthful d s plan) (.inr (.inl (by omega)))
    | some c =>
      obtain ⟨inside, -⟩ := List.getElem?_eq_some_iff.mp step
      dsimp only
      constructor
      · rintro ⟨n, completed, -, reached⟩
        have same : failStep.toNat = n := by
          dsimp only at completed
          omega
        rw [same, reached]
        exact .inr (.inr rfl)
      · intro holds
        have applies : (execute d s (plan.take failStep.toNat)).isSome = true := by
          rcases holds with negative | beyond | applies
          · omega
          · omega
          · exact applies
        obtain ⟨t, applies⟩ := Option.isSome_iff_exists.mp applies
        refine ⟨failStep.toNat, (Int.toNat_of_nonneg given).symm, inside.le, ?_⟩
        rw [applies, twSimulate_of_run (run_of_execute [] applies)]
  · rename_i unset
    exact iff_of_true (twSimulate_truthful d s plan) (.inl (Int.not_le.mp unset))

/-- The report is truthful exactly when no step of the plan is given as the failed one or the steps before it apply. -/
theorem twReplan_truthful_iff [Cxx F] (d : TwDomain F) (s : TwState F) (plan : List (TwCall F))
    (tasks : List (TwTask F)) (failStep : Int) {r : TwReplanResult F}
    (returned : twReplan s plan tasks d failStep = .ok r) :
    Truthful d s plan r.simulate ↔
      failStep < 0 ∨ plan.length ≤ failStep ∨ (execute d s (plan.take failStep.toNat)).isSome = true := by
  rw [(twReplan_eq_ok returned).1]
  exact simulateTo_truthful_iff d s plan failStep

/-- A door that can only be opened once it is unlocked. -/
def doorDomain : TwDomain Int where
  actions := (OrderedMap.empty.set "unlock" fun s _ => some (s.setVar "unlocked" (.bool true))).set "open" fun s _ =>
    if s.hasVar "unlocked" then some (s.setVar "open" (.bool true)) else none
  taskMethods := .empty
  actionDurations := .empty

/-- The door is still locked, but with the second step given as the failed one the report counts it as opened. -/
theorem twReplan_reports_locked_door_open :
    execute doorDomain .empty [⟨"open", []⟩] = none ∧
      ∃ r, twReplan .empty [⟨"open", []⟩, ⟨"unlock", []⟩] [.call ⟨"open", []⟩, .call ⟨"unlock", []⟩] doorDomain 1 =
          .ok r ∧
        r.simulate.completedSteps = 1 ∧ ¬Truthful doorDomain .empty [⟨"open", []⟩, ⟨"unlock", []⟩] r.simulate := by
  refine ⟨rfl, _, rfl, rfl, ?_⟩
  rintro ⟨n, completed, -, reached⟩
  obtain rfl : 1 = n := Int.ofNat.inj completed
  cases reached

theorem twReplan_truthful_unlocked :
    ∃ r, twReplan .empty [⟨"unlock", []⟩, ⟨"open", []⟩] [.call ⟨"unlock", []⟩, .call ⟨"open", []⟩] doorDomain 1 =
        .ok r ∧
      Truthful doorDomain .empty [⟨"unlock", []⟩, ⟨"open", []⟩] r.simulate := by
  refine ⟨_, rfl, ?_⟩
  exact (twReplan_truthful_iff doorDomain .empty [⟨"unlock", []⟩, ⟨"open", []⟩]
    [.call ⟨"unlock", []⟩, .call ⟨"open", []⟩] 1 rfl).mpr (.inr (.inr rfl))

end WeftWarp
