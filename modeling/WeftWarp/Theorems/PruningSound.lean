import WeftWarp.Theorems.PlannersAgree
import WeftWarp.Theorems.PlanReturns

/-! # What the pruning checks reject

The witness oracle and the prefix probe judge every task in the present state. A call that is blacklisted or unknown
is hopeless wherever it stands; a goal is not, as the tasks before it may meet it. -/

namespace WeftWarp

variable {F : Type} [Cxx F] {d : TwDomain F} {s : TwState F}

/-- While allowed calls work off the list, no binding is met that counts against it. -/
def Unreached (d : TwDomain F) (allowed : TwCall F → Prop) (s : TwState F) (tasks : List (TwTask F))
    (counts : TwGoalBinding F → Prop) : Prop :=
  ∀ calls y, Run (Step d) (s, tasks) calls y → (∀ c ∈ calls, allowed c) → ∀ b, counts b → b.satisfied y.1 ≠ .ok true

/-! ### Calls of a decomposed list -/

variable {c : TwCall F} {plan : List (TwCall F)} {tasks : List (TwTask F)} {t : TwTask F}

/-- A call on a list that a run works off is one of its actions, or it has a method. -/
theorem call_of_run {x y : Config F} {q : List (TwCall F)} (run : Run (Step d) x q y) (done : y.2 = [])
    (mem : .call c ∈ x.2) :
    d.hasAction c.name = true ∧ c ∈ q ∨ d.hasAction c.name = false ∧ hasMethod d c.name = true := by
  induction run with
  | refl x => simp [done] at mem
  | @step x y z l q step _ ih =>
    cases step with
    | act ha hs =>
      rcases List.mem_cons.mp mem with same | mem
      · cases same
        exact .inl ⟨by rw [TwDomain.hasAction, ha]; rfl, List.mem_cons_self⟩
      · exact (ih done mem).imp_left (And.imp_right (List.mem_cons_of_mem _))
    | task ha hm hmem hsubs =>
      rcases List.mem_cons.mp mem with same | mem
      · cases same
        refine .inr ⟨by rw [TwDomain.hasAction, ha]; rfl, ?_⟩
        rw [hasMethod, hm, Option.getD_some]
        cases hmem <;> rfl
      · exact ih done (List.mem_append_right _ mem)
    | goalMet =>
      rcases List.mem_cons.mp mem with same | mem
      · cases same
      · exact ih done mem
    | goalVia => exact ih done (List.mem_append_right _ mem)
    | multiMet =>
      rcases List.mem_cons.mp mem with same | mem
      · cases same
      · exact ih done mem
    | multiVia => exact ih done (List.mem_cons_of_mem _ mem)

theorem mem_plan_of_decomposes (decomposes : Decomposes d s tasks plan) (mem : .call c ∈ tasks)
    (action : d.hasAction c.name = true) : c ∈ plan := by
  obtain ⟨t, run⟩ := decomposes
  rcases call_of_run run rfl mem with ⟨-, mem⟩ | ⟨none, -⟩
  · exact mem
  · exact absurd action (Bool.eq_false_iff.mp none)

theorem hasMethod_of_decomposes (decomposes : Decomposes d s tasks plan) (mem : .call c ∈ tasks)
    (action : d.hasAction c.name = false) : hasMethod d c.name = true := by
  obtain ⟨t, run⟩ := decomposes
  rcases call_of_run run rfl mem with ⟨some, -⟩ | ⟨-, method⟩
  · exact absurd some (Bool.eq_false_iff.mp action)
  · exact method

theorem Unreached.not_counts {allowed : TwCall F → Prop} {counts : TwGoalBinding F → Prop}
    (beyond : Unreached d allowed s tasks counts) (decomposes : Decomposes d s tasks plan)
    (within : ∀ c ∈ plan, allowed c) (mem : t ∈ tasks) {b : TwGoalBinding F} (asked : b ∈ t.bindings) :
    ¬counts b := by
  intro counts
  obtain ⟨u, run⟩ := decomposes
  obtain ⟨calls, y, first, reached, met⟩ := met_of_run run rfl t mem b asked
  exact beyond calls y reached (fun c mem => within c (first.subset mem)) b counts met

theorem decomposes_calls_goal {t : TwState F} (calls : List (TwCall F)) (b : TwGoalBinding F)
    (applies : execute d s calls = some t) (met : b.satisfied t = .ok true) :
    Decomposes d s (calls.map .call ++ [.goal ⟨[b]⟩]) calls := by
  have satisfied : (⟨[b]⟩ : TwGoal F).isSatisfied t = .ok true := by
    rw [TwGoal.isSatisfied, bindingsSatisfied, met]
    rfl
  have run := (run_of_execute [.goal ⟨[b]⟩] applies).trans (.silent (.goalMet satisfied) (.refl (t, [])))
  rw [List.append_nil] at run
  exact ⟨t, run⟩

/-! ### The witness oracle -/

theorem scanTasks_skips {ts : List (TwTask F)} {n m : Int × Int} (scan : scanTasks d s n ts = .ok m)
    (skipped : m.2 ≠ n.2) : ∃ t ∈ ts, ∃ w, taskWitness d s t = .ok w ∧ w.2 ≠ 0 := by
  induction ts generalizing n with
  | nil =>
    cases scan
    exact absurd rfl skipped
  | cons t ts ih =>
    rw [scanTasks] at scan
    cases witness : taskWitness d s t with
    | error e =>
      rw [witness] at scan
      cases scan
    | ok w =>
      rw [witness] at scan
      by_cases here : w.2 = 0
      · obtain ⟨t', mem, skips⟩ := ih scan (by simpa [here] using skipped)
        exact ⟨t', List.mem_cons_of_mem t mem, skips⟩
      · exact ⟨t, List.mem_cons_self, w, witness, here⟩

/-- The binding counts against the list in the oracle: it is the first unmet one of a goal and has no method. -/
def Skipped (d : TwDomain F) (s : TwState F) (tasks : List (TwTask F)) (b : TwGoalBinding F) : Prop :=
  ∃ g unmet, .goal g ∈ tasks ∧ g.unsatisfied s = .ok (b :: unmet) ∧ hasMethod d b.var = false

/-- What the oracle skips is a call without an action and a method, or a goal whose first unmet binding has none. -/
theorem skips_inv {w : Int × Int} (witness : taskWitness d s t = .ok w) (skips : w.2 ≠ 0) :
    (∃ c, t = .call c ∧ d.hasAction c.name = false ∧ hasMethod d c.name = false) ∨
      ∃ g b unmet, t = .goal g ∧ g.unsatisfied s = .ok (b :: unmet) ∧ hasMethod d b.var = false := by
  cases t with
  | call c =>
    refine .inl ⟨c, rfl, ?_⟩
    cases witness
    rw [callWitness] at skips
    split_ifs at skips with action method
    · exact absurd rfl skips
    · exact absurd rfl skips
    · exact ⟨Bool.eq_false_of_not_eq_true action, Bool.eq_false_of_not_eq_true method⟩
  | goal g =>
    rw [taskWitness, goalWitness] at witness
    split at witness
    · cases witness
    · cases witness
      exact absurd rfl skips
    · cases unmet : g.unsatisfied s with
      | error e =>
        rw [unmet] at witness
        cases witness
      | ok bs =>
        rw [unmet] at witness
        cases bs with
        | nil =>
          cases witness
          exact absurd rfl skips
        | cons b bs =>
          have chosen : (if hasMethod d b.var then (1, 0) else (0, 1)) = w := Except.ok.inj witness
          split_ifs at chosen with method
          · subst chosen
            exact absurd rfl skips
          · exact .inr ⟨g, b, bs, rfl, unmet, Bool.eq_false_of_not_eq_true method⟩
  | multiGoal mg =>
    rw [taskWitness] at witness
    cases checked : mg.isSatisfied s with
    | error e =>
      rw [checked] at witness
      cases witness
    | ok met =>
      rw [checked] at witness
      cases witness
      exact absurd rfl skips

theorem scanTasks_actions {calls : List (TwCall F)} (actions : ∀ c ∈ calls, d.hasAction c.name = true)
    (n : Int × Int) (rest : List (TwTask F)) :
    scanTasks d s n (calls.map .call ++ rest) = scanTasks d s n rest := by
  induction calls with
  | nil => rfl
  | cons c calls ih =>
    obtain ⟨action, actions⟩ := List.forall_mem_cons.mp actions
    have idle : taskWitness d s (.call c) = .ok (0, 0) := by
      rw [taskWitness, callWitness, if_pos action]
    rw [List.map_cons, List.cons_append, scanTasks, idle]
    simpa using ih actions

/-- The oracle rejects a list rightly if working it off meets no binding that counts against it. Otherwise the calls up
    to there and the goal to have the binding met are a list that is rejected and has a plan. -/
theorem oracle_rejects_hopeless (d : TwDomain F) (s : TwState F) (tasks : List (TwTask F)) :
    (Unreached d (fun _ => True) s tasks (Skipped d s tasks) → ∀ r, twWitnessOracleGoalReach s tasks d = .ok r →
      r.found = false → ¬∃ plan, Decomposes d s tasks plan) ∧
    (¬Unreached d (fun _ => True) s tasks (Skipped d s tasks) → ∃ calls y b, Run (Step d) (s, tasks) calls y ∧
      Skipped d s tasks b ∧ twWitnessOracleGoalReach s (calls.map .call ++ [.goal ⟨[b]⟩]) d = .ok ⟨false, 0, 1⟩ ∧
        Decomposes d s (calls.map .call ++ [.goal ⟨[b]⟩]) calls) := by
  constructor
  · rintro beyond r rejected unfound ⟨plan, decomposes⟩
    rw [twWitnessOracleGoalReach] at rejected
    cases scan : scanTasks d s (0, 0) tasks with
    | error e =>
      rw [scan] at rejected
      cases rejected
    | ok m =>
      rw [scan] at rejected
      cases rejected
      have skipped : m.2 ≠ 0 := by
        intro none
        simp [witnessResult, none] at unfound
      obtain ⟨t, mem, w, witness, skips⟩ := scanTasks_skips scan skipped
      rcases skips_inv witness skips with ⟨c, rfl, action, method⟩ | ⟨g, b, bs, rfl, unmet, unserved⟩
      · exact absurd (hasMethod_of_decomposes decomposes mem action) (Bool.eq_false_iff.mp method)
      · have asked := (unmet_of_bindingsUnsatisfied unmet b List.mem_cons_self).1
        exact beyond.not_counts decomposes (fun _ _ => trivial) mem asked ⟨g, bs, mem, unmet, unserved⟩
  · intro reached
    simp only [Unreached, not_forall, not_not] at reached
    obtain ⟨calls, y, run, -, b, counts, met⟩ := reached
    obtain ⟨g, bs, mem, first, unserved⟩ := id counts
    have unmet := (unmet_of_bindingsUnsatisfied first b List.mem_cons_self).2
    have applies := execute_of_run run
    refine ⟨calls, y, b, run, counts, ?_, decomposes_calls_goal calls b applies met⟩
    have skipped : taskWitness d s (.goal ⟨[b]⟩) = .ok (0, 1) := by
      have some : (⟨[b]⟩ : TwGoal F).unsatisfied s = .ok [b] := by
        rw [TwGoal.unsatisfied, bindingsUnsatisfied, unmet]
        rfl
      rw [taskWitness, goalWitness, TwGoal.isSatisfied, bindingsSatisfied, unmet, some]
      simp [Except.map, unserved]
    rw [twWitnessOracleGoalReach, scanTasks_actions (hasAction_of_execute applies), scanTasks, skipped]
    rfl

/-- The lamp is switched on before the goal to have it on; no method serves the goal. -/
theorem oracle_rejects_bareLamp :
    twWitnessOracleGoalReach .empty lampNext.2 bareLampDomain = .ok ⟨false, 0, 1⟩ ∧
      Decomposes bareLampDomain .empty lampNext.2 [⟨"flip", [.string "hall"]⟩] :=
  ⟨by decide +kernel, decomposes_calls_goal [⟨"flip", [.string "hall"]⟩] ⟨"lamp", "hall", .bool true⟩ rfl (by decide +kernel)⟩

/-! ### The prefix probe -/

variable {bl : TwBlacklist}

theorem twPrefixPlausible_false {probe : Nat} (rejected : twPrefixPlausible d bl s probe tasks = .ok false) :
    ∃ t ∈ tasks.take probe, twTaskShallowPlausible d bl s t = .ok false := by
  induction probe generalizing tasks with
  | zero =>
    rw [twPrefixPlausible.eq_def] at rejected
    cases rejected
  | succ probe ih =>
    cases tasks with
    | nil =>
      rw [twPrefixPlausible.eq_def] at rejected
      cases rejected
    | cons t tasks =>
      rw [twPrefixPlausible] at rejected
      cases judged : twTaskShallowPlausible d bl s t with
      | error e =>
        rw [judged] at rejected
        cases rejected
      | ok fits =>
        rw [judged] at rejected
        cases fits with
        | false => exact ⟨t, List.mem_cons_self, judged⟩
        | true =>
          obtain ⟨t', mem, judged⟩ := ih rejected
          exact ⟨t', List.mem_cons_of_mem t mem, judged⟩

theorem bindingsPlausible_false {bs : List (TwGoalBinding F)} (rejected : bindingsPlausible d s bs = .ok false) :
    ∃ b ∈ bs, d.hasTask b.var = false ∧ b.satisfied s = .ok false := by
  rw [bindingsPlausible] at rejected
  cases checked : bindingsSatisfied s bs with
  | error e =>
    rw [checked] at rejected
    cases rejected
  | ok met =>
    rw [checked] at rejected
    cases met with
    | true => cases rejected
    | false =>
      cases left : bindingsUnsatisfied s bs with
      | error e =>
        rw [left] at rejected
        cases rejected
      | ok unmet =>
        rw [left] at rejected
        cases unmet with
        | nil =>
          rw [bindingsSatisfied_of_unsatisfied_nil left] at checked
          cases checked
        | cons b unmet =>
          have unserved : (b :: unmet).any (fun b => d.hasTask b.var) = false := Except.ok.inj rejected
          obtain ⟨asked, unsatisfied⟩ := unmet_of_bindingsUnsatisfied left b List.mem_cons_self
          exact ⟨b, asked, by simpa using List.any_eq_false.mp unserved b List.mem_cons_self, unsatisfied⟩

/-- What the probe rejects is a blacklisted action, a call that nothing is known of, or it asks for an unmet binding
    without methods. -/
theorem implausible_inv (rejected : twTaskShallowPlausible d bl s t = .ok false) :
    (∃ c, t = .call c ∧ d.hasAction c.name = true ∧ blacklisted bl c = true) ∨
      (∃ c, t = .call c ∧ d.hasAction c.name = false ∧ d.hasTask c.name = false) ∨
        ∃ b ∈ t.bindings, d.hasTask b.var = false ∧ b.satisfied s = .ok false := by
  cases t with
  | call c =>
    rw [twTaskShallowPlausible] at rejected
    split_ifs at rejected with action
    · exact .inl ⟨c, rfl, action, by simpa using Except.ok.inj rejected⟩
    · exact .inr (.inl ⟨c, rfl, Bool.eq_false_of_not_eq_true action, Except.ok.inj rejected⟩)
  | goal g => exact .inr (.inr (bindingsPlausible_false rejected))
  | multiGoal mg => exact .inr (.inr (bindingsPlausible_false rejected))

theorem twPrefixPlausible_actions {calls : List (TwCall F)} (actions : ∀ c ∈ calls, d.hasAction c.name = true)
    (allowed : ∀ c ∈ calls, blacklisted bl c = false) (probe : Nat) (rest : List (TwTask F)) :
    twPrefixPlausible d bl s (calls.length + probe) (calls.map .call ++ rest) = twPrefixPlausible d bl s probe rest := by
  induction calls with
  | nil => rw [List.length_nil, Nat.zero_add, List.map_nil, List.nil_append]
  | cons c calls ih =>
    obtain ⟨action, actions⟩ := List.forall_mem_cons.mp actions
    obtain ⟨allowed, later⟩ := List.forall_mem_cons.mp allowed
    have fits : twTaskShallowPlausible d bl s (.call c) = .ok true := by
      rw [twTaskShallowPlausible, if_pos action, allowed]
      rfl
    rw [List.length_cons, Nat.add_right_comm, List.map_cons, List.cons_append, twPrefixPlausible, fits]
    exact ih actions later

omit [Cxx F] in
theorem hasMethod_of_hasTask_false {name : String} (unknown : d.hasTask name = false) : hasMethod d name = false := by
  rw [hasMethod, Option.not_isSome_iff_eq_none.mp (Bool.eq_false_iff.mp unknown)]
  rfl

/-- The binding counts against the list in the probe: a task that the probe turns down asks for it, and it is unmet and
    has no methods. -/
def TurnedDown (d : TwDomain F) (bl : TwBlacklist) (s : TwState F) (tasks : List (TwTask F)) (b : TwGoalBinding F) : Prop :=
  ∃ t ∈ tasks, twTaskShallowPlausible d bl s t = .ok false ∧ b ∈ t.bindings ∧ d.hasTask b.var = false ∧
    b.satisfied s = .ok false

/-- The probe rejects a list rightly if working it off without blacklisted calls meets no binding that counts against the
    tasks looked at. Otherwise the calls up to there and the goal to have the binding met are a list that a probe of its
    length rejects and that has a plan. -/
theorem probe_rejects_hopeless (d : TwDomain F) (bl : TwBlacklist) (s : TwState F) (probe : Nat) (tasks : List (TwTask F)) :
    (Unreached d (fun c => blacklisted bl c = false) s tasks (TurnedDown d bl s (tasks.take probe)) →
      twPrefixPlausible d bl s probe tasks = .ok false →
      ¬∃ plan, Decomposes d s tasks plan ∧ ∀ c ∈ plan, blacklisted bl c = false) ∧
    (¬Unreached d (fun c => blacklisted bl c = false) s tasks (TurnedDown d bl s (tasks.take probe)) →
      ∃ calls y b, Run (Step d) (s, tasks) calls y ∧ (∀ c ∈ calls, blacklisted bl c = false) ∧
        TurnedDown d bl s (tasks.take probe) b ∧
        twPrefixPlausible d bl s (calls.length + 1) (calls.map .call ++ [.goal ⟨[b]⟩]) = .ok false ∧
        Decomposes d s (calls.map .call ++ [.goal ⟨[b]⟩]) calls) := by
  constructor
  · rintro beyond rejected ⟨plan, decomposes, allowed⟩
    obtain ⟨t, looked, rejected⟩ := twPrefixPlausible_false rejected
    have mem := List.mem_of_mem_take looked
    rcases implausible_inv rejected with ⟨c, rfl, action, listed⟩ | ⟨c, rfl, action, unknown⟩ | ⟨b, asked, counts⟩
    · have free := allowed c (mem_plan_of_decomposes decomposes mem action)
      exact absurd listed (Bool.eq_false_iff.mp free)
    · have method := hasMethod_of_decomposes decomposes mem action
      exact absurd method (Bool.eq_false_iff.mp (hasMethod_of_hasTask_false unknown))
    · exact beyond.not_counts decomposes allowed mem asked ⟨t, looked, rejected, asked, counts⟩
  · intro reached
    simp only [Unreached, not_forall, not_not] at reached
    obtain ⟨calls, y, run, allowed, b, counts, met⟩ := reached
    obtain ⟨t, -, -, -, unserved, unmet⟩ := id counts
    have applies := execute_of_run run
    refine ⟨calls, y, b, run, allowed, counts, ?_, decomposes_calls_goal calls b applies met⟩
    have rejected : twTaskShallowPlausible d bl s (.goal ⟨[b]⟩) = .ok false := by
      rw [twTaskShallowPlausible, bindingsPlausible, bindingsSatisfied, bindingsUnsatisfied, unmet]
      simp [bindingsUnsatisfied, Except.map, unserved]
    rw [twPrefixPlausible_actions (hasAction_of_execute applies) allowed, twPrefixPlausible, rejected]

/-- The same list is rejected by the probe of two tasks. -/
theorem probe_rejects_bareLamp :
    twPrefixPlausible bareLampDomain [] .empty 2 lampNext.2 = .ok false ∧
      Decomposes bareLampDomain .empty lampNext.2 [⟨"flip", [.string "hall"]⟩] ∧
      ∀ c ∈ [(⟨"flip", [.string "hall"]⟩ : TwCall Int)], blacklisted [] c = false :=
  ⟨by decide +kernel, decomposes_calls_goal [⟨"flip", [.string "hall"]⟩] ⟨"lamp", "hall", .bool true⟩ rfl (by decide +kernel),
    by decide +kernel⟩

end WeftWarp
