import WeftWarp.Theorems.PruningSound

/-! # Flat task lists

A list of calls to actions with multigoals behind them never leaves the fast path of `tw_seek_plan`, so its length
costs no fuel. A check of the oracle that throws ends the search. -/

namespace WeftWarp

variable {F : Type} [Cxx F] {d : TwDomain F} {bl : TwBlacklist} {s : TwState F} {calls : List (TwCall F)}
  {goals : List (TwMultiGoal F)}

/-- Calls with multigoals behind them. -/
def flatList (calls : List (TwCall F)) (goals : List (TwMultiGoal F)) : List (TwTask F) :=
  calls.map .call ++ goals.map .multiGoal

/-- No check of a multigoal throws behind calls from the front of the list that are not blacklisted and apply. -/
def Checkable (d : TwDomain F) (bl : TwBlacklist) (s : TwState F) (calls : List (TwCall F))
    (goals : List (TwMultiGoal F)) : Prop :=
  ∀ front u, front <+: calls → (∀ c ∈ front, blacklisted bl c = false) → execute d s front = some u →
    ∀ mg ∈ goals, ∃ sat, mg.isSatisfied u = .ok sat

/-- Some call is blacklisted, or the calls do not run through. -/
def Blocked (d : TwDomain F) (bl : TwBlacklist) (s : TwState F) (calls : List (TwCall F)) : Prop :=
  (∃ c ∈ calls, blacklisted bl c = true) ∨ execute d s calls = none

theorem Checkable.here (checkable : Checkable d bl s calls goals) : ∀ mg ∈ goals, ∃ sat, mg.isSatisfied s = .ok sat :=
  checkable [] s List.nil_prefix (fun _ mem => nomatch mem) rfl

theorem Checkable.tail {c : TwCall F} {s' : TwState F} {action : TwActionFn F}
    (checkable : Checkable d bl s (c :: calls) goals) (allowed : blacklisted bl c = false)
    (ha : d.actions.find? c.name = some action) (hs : action s c.args = some s') : Checkable d bl s' calls goals :=
  fun front u part free reached =>
    checkable (c :: front) u (List.cons_prefix_cons.mpr ⟨rfl, part⟩) (List.forall_mem_cons.mpr ⟨allowed, free⟩)
      (execute_cons_eq_some.mpr ⟨action, s', ha, hs, reached⟩)

/-! ### The oracle -/

theorem scanTasks_multiGoals (checked : ∀ mg ∈ goals, ∃ sat, mg.isSatisfied s = .ok sat) (n : Int × Int) :
    scanTasks d s n (goals.map .multiGoal) = .ok n := by
  induction goals with
  | nil => rfl
  | cons mg goals ih =>
    obtain ⟨⟨sat, hsat⟩, checked⟩ := List.forall_mem_cons.mp checked
    have idle : taskWitness d s (.multiGoal mg) = .ok (0, 0) := by
      rw [taskWitness, hsat]
      rfl
    rw [List.map_cons, scanTasks, idle]
    simpa using ih checked

theorem checked_of_scanTasks {ts : List (TwTask F)} {n m : Int × Int} (scan : scanTasks d s n ts = .ok m)
    {mg : TwMultiGoal F} (mem : .multiGoal mg ∈ ts) : ∃ sat, mg.isSatisfied s = .ok sat := by
  induction ts generalizing n with
  | nil => cases mem
  | cons t ts ih =>
    rw [scanTasks] at scan
    cases witness : taskWitness d s t with
    | error e =>
      rw [witness] at scan
      cases scan
    | ok w =>
      rw [witness] at scan
      rcases List.mem_cons.mp mem with rfl | mem
      · rw [taskWitness] at witness
        cases checked : mg.isSatisfied s with
        | error e =>
          rw [checked] at witness
          cases witness
        | ok sat => exact ⟨sat, rfl⟩
      · exact ih scan mem

theorem oracle_flatList (actions : ∀ c ∈ calls, d.hasAction c.name = true)
    (checked : ∀ mg ∈ goals, ∃ sat, mg.isSatisfied s = .ok sat) :
    twWitnessOracleGoalReach s (flatList calls goals) d = .ok ⟨true, 0, 0⟩ := by
  rw [twWitnessOracleGoalReach, flatList, scanTasks_actions actions, scanTasks_multiGoals checked]
  rfl

/-! ### The walk -/

section Walk
variable {tasks : List (TwTask F)} {idx : Nat}

theorem walk_multiGoals (met : ∀ mg ∈ goals, mg.isSatisfied s = .ok true) (plan : List (TwCall F))
    (drop : tasks.drop idx = goals.map .multiGoal) :
    walk d bl tasks (twBuildWitnessScanCache tasks d) idx s plan (goals.map .multiGoal) = .ok (.done plan) := by
  induction goals generalizing idx with
  | nil => rw [List.map_nil, walk]
  | cons mg goals ih =>
    have oracle : twWitnessOracleGoalReach s (.multiGoal mg :: goals.map .multiGoal) d = .ok ⟨true, 0, 0⟩ :=
      @oracle_flatList F _ d s [] (mg :: goals) (List.forall_mem_nil _) fun mg mem => ⟨true, met mg mem⟩
    obtain ⟨first, met⟩ := List.forall_mem_cons.mp met
    have head : headOf d bl s (.multiGoal mg) = .ok .met := by
      rw [headOf, bindingsHead, ← TwMultiGoal.isSatisfied, first]
      rfl
    rw [List.map_cons, walk_cons, oracleCached_of_drop d s drop, oracle, head]
    exact ih met (drop_succ_of_drop drop)

variable {c : TwCall F}

theorem headOf_acts {s' : TwState F} {action : TwActionFn F} (allowed : blacklisted bl c = false)
    (ha : d.actions.find? c.name = some action) (hs : action s c.args = some s') :
    headOf d bl s (.call c) = .ok (.acts c s') := by
  rw [headOf, ha]
  dsimp only
  rw [allowed, if_neg Bool.false_ne_true, hs]

/-- In front of a call to an action the oracle lets the walk look at the call. -/
theorem walk_cons_flatList (bl : TwBlacklist) (actions : ∀ c' ∈ c :: calls, d.hasAction c'.name = true)
    (checked : ∀ mg ∈ goals, ∃ sat, mg.isSatisfied s = .ok sat) (plan : List (TwCall F))
    (drop : tasks.drop idx = flatList (c :: calls) goals) :
    (∀ s', headOf d bl s (.call c) = .ok (.acts c s') →
      walk d bl tasks (twBuildWitnessScanCache tasks d) idx s plan (flatList (c :: calls) goals) =
        walk d bl tasks (twBuildWitnessScanCache tasks d) (idx + 1) s' (plan ++ [c]) (flatList calls goals)) ∧
    (headOf d bl s (.call c) = .ok .stuck →
      walk d bl tasks (twBuildWitnessScanCache tasks d) idx s plan (flatList (c :: calls) goals) = .ok .dead) := by
  have oracle : twWitnessOracleGoalReach s (flatList (c :: calls) goals) d = .ok ⟨true, 0, 0⟩ :=
    oracle_flatList actions checked
  have split : flatList (c :: calls) goals = .call c :: flatList calls goals := rfl
  rw [split] at drop oracle ⊢
  rw [walk_cons, oracleCached_of_drop d s drop, oracle]
  constructor
  · intro s' head
    rw [head]
    rfl
  · intro head
    rw [head]
    rfl

theorem walk_flatList_done {t : TwState F} (allowed : ∀ c ∈ calls, blacklisted bl c = false)
    (applies : execute d s calls = some t) (checkable : Checkable d bl s calls goals)
    (met : ∀ mg ∈ goals, mg.isSatisfied t = .ok true) (plan : List (TwCall F))
    (drop : tasks.drop idx = flatList calls goals) :
    walk d bl tasks (twBuildWitnessScanCache tasks d) idx s plan (flatList calls goals) = .ok (.done (plan ++ calls)) := by
  induction calls generalizing s idx plan with
  | nil =>
    obtain rfl := Option.some.inj applies
    rw [List.append_nil]
    exact walk_multiGoals met plan drop
  | cons c calls ih =>
    have actions := hasAction_of_execute applies
    obtain ⟨action, s', ha, hs, applies⟩ := execute_cons_eq_some.mp applies
    obtain ⟨free, allowed⟩ := List.forall_mem_cons.mp allowed
    rw [(walk_cons_flatList bl actions checkable.here plan drop).1 s' (headOf_acts free ha hs),
      ih allowed applies (checkable.tail free ha hs) (plan ++ [c]) (drop_succ_of_drop drop), List.append_assoc]
    rfl

theorem Blocked.cons_inv {action : TwActionFn F} (blocked : Blocked d bl s (c :: calls))
    (ha : d.actions.find? c.name = some action) :
    headOf d bl s (.call c) = .ok .stuck ∨
      ∃ s', blacklisted bl c = false ∧ action s c.args = some s' ∧ Blocked d bl s' calls := by
  cases listed : blacklisted bl c with
  | true =>
    rw [headOf, ha]
    dsimp only
    rw [listed]
    exact .inl rfl
  | false =>
    cases hs : action s c.args with
    | none =>
      rw [headOf, ha]
      dsimp only
      rw [listed, if_neg Bool.false_ne_true, hs]
      exact .inl rfl
    | some s' =>
      refine .inr ⟨s', rfl, rfl, ?_⟩
      rcases blocked with ⟨c', mem, listed'⟩ | fails
      · rcases List.mem_cons.mp mem with rfl | mem
        · rw [listed] at listed'
          cases listed'
        · exact .inl ⟨c', mem, listed'⟩
      · rw [execute, ha, Option.bind_some, hs] at fails
        exact .inr fails

theorem walk_flatList_dead (actions : ∀ c ∈ calls, d.hasAction c.name = true) (blocked : Blocked d bl s calls)
    (checkable : Checkable d bl s calls goals) (plan : List (TwCall F)) (drop : tasks.drop idx = flatList calls goals) :
    walk d bl tasks (twBuildWitnessScanCache tasks d) idx s plan (flatList calls goals) = .ok .dead := by
  induction calls generalizing s idx plan with
  | nil => rcases blocked with ⟨c, mem, -⟩ | fails <;> contradiction
  | cons c calls ih =>
    obtain ⟨acts, stuck⟩ := walk_cons_flatList bl actions checkable.here plan drop
    obtain ⟨known, actions⟩ := List.forall_mem_cons.mp actions
    obtain ⟨action, ha⟩ := Option.isSome_iff_exists.mp known
    rcases blocked.cons_inv ha with head | ⟨s', free, hs, blocked⟩
    · exact stuck head
    · rw [acts s' (headOf_acts free ha hs)]
      exact ih actions blocked (checkable.tail free ha hs) (plan ++ [c]) (drop_succ_of_drop drop)

theorem checked_of_walk {t : TwTask F} {rest : List (TwTask F)} {plan : List (TwCall F)} {w : Walk F}
    (drop : tasks.drop idx = t :: rest)
    (walked : walk d bl tasks (twBuildWitnessScanCache tasks d) idx s plan (t :: rest) = .ok w) {mg : TwMultiGoal F}
    (mem : .multiGoal mg ∈ t :: rest) : ∃ sat, mg.isSatisfied s = .ok sat := by
  rw [walk_cons, oracleCached_of_drop d s drop, twWitnessOracleGoalReach] at walked
  cases scan : scanTasks d s (0, 0) (t :: rest) with
  | error e =>
    rw [scan] at walked
    cases walked
  | ok m => exact checked_of_scanTasks scan mem

theorem checkable_of_walk (actions : ∀ c ∈ calls, d.hasAction c.name = true) {plan : List (TwCall F)} {w : Walk F}
    (drop : tasks.drop idx = flatList calls goals)
    (walked : walk d bl tasks (twBuildWitnessScanCache tasks d) idx s plan (flatList calls goals) = .ok w) :
    Checkable d bl s calls goals := by
  induction calls generalizing s idx plan with
  | nil =>
    intro front u part _ reached mg mem
    obtain rfl := List.prefix_nil.mp part
    obtain rfl := Option.some.inj reached
    cases goals with
    | nil => cases mem
    | cons first goals => exact checked_of_walk drop walked (List.mem_map_of_mem mem)
  | cons c calls ih =>
    have here : ∀ mg ∈ goals, ∃ sat, mg.isSatisfied s = .ok sat := fun mg mem =>
      checked_of_walk drop walked (List.mem_append_right (List.map TwTask.call (c :: calls)) (List.mem_map_of_mem mem))
    intro front u part free reached mg mem
    cases front with
    | nil =>
      obtain rfl := Option.some.inj reached
      exact here mg mem
    | cons c' front =>
      obtain ⟨rfl, inner⟩ := List.cons_prefix_cons.mp part
      obtain ⟨allowed, free⟩ := List.forall_mem_cons.mp free
      obtain ⟨action, s', ha, hs, reached⟩ := execute_cons_eq_some.mp reached
      rw [(walk_cons_flatList bl actions here plan drop).1 s' (headOf_acts allowed ha hs)] at walked
      exact ih (List.forall_mem_cons.mp actions).2 (drop_succ_of_drop drop) walked front u inner free reached mg mem

end Walk

/-! ### The search -/

omit [Cxx F] in
theorem lookup_fresh (key : TwMemoKey) : (TwMemo.fresh : TwMemo F).lookup key = none := rfl

theorem twSeekPlan_of_walk {tasks : List (TwTask F)} {r : Option (List (TwCall F))} (fuel : Nat)
    (walked : walk d bl tasks (twBuildWitnessScanCache tasks d) 0 s [] tasks = .ok (r.elim .dead .done)) :
    ∃ memo, twSeekPlan d bl fuel s tasks .fresh = .ok (r, memo) := by
  have step (seek) : ∃ memo, seekStep d bl seek s tasks .fresh = .ok (r, memo) := by
    cases tasks with
    | nil =>
      rw [walk] at walked
      cases r with
      | none => cases walked
      | some plan =>
        cases walked
        exact ⟨_, rfl⟩
    | cons t tasks =>
      rw [seekStep, if_neg (by simp)]
      dsimp only
      rw [lookup_fresh, walked]
      cases r <;> exact ⟨_, rfl⟩
  cases fuel <;> exact step _

theorem walk_of_twSeekPlan {tasks : List (TwTask F)} {fuel : Nat} {r : Option (List (TwCall F)) × TwMemo F}
    (sought : twSeekPlan d bl fuel s tasks .fresh = .ok r) :
    ∃ w, walk d bl tasks (twBuildWitnessScanCache tasks d) 0 s [] tasks = .ok w := by
  have step (seek) (sought : seekStep d bl seek s tasks .fresh = .ok r) :
      ∃ w, walk d bl tasks (twBuildWitnessScanCache tasks d) 0 s [] tasks = .ok w := by
    cases tasks with
    | nil => exact ⟨.done [], by rw [walk]⟩
    | cons t tasks =>
      rw [seekStep, if_neg (by simp)] at sought
      dsimp only at sought
      rw [lookup_fresh] at sought
      cases walked : walk d bl (t :: tasks) (twBuildWitnessScanCache (t :: tasks) d) 0 s [] (t :: tasks) with
      | error e =>
        rw [walked] at sought
        cases sought
      | ok w => exact ⟨w, rfl⟩
  cases fuel <;> exact step _ sought

/-- With any fuel, the plan for a flat list is its calls in order, and there is none if a call is blacklisted or
    fails, exactly if no check of a multigoal on the way throws. -/
theorem twSeekPlan_flatList (d : TwDomain F) (bl : TwBlacklist) (fuel : Nat) (s : TwState F) (calls : List (TwCall F))
    (goals : List (TwMultiGoal F)) (actions : ∀ c ∈ calls, d.hasAction c.name = true) :
    ((∀ c ∈ calls, blacklisted bl c = false) →
      (∃ t, execute d s calls = some t ∧ ∀ mg ∈ goals, mg.isSatisfied t = .ok true) →
      ((∃ memo, twSeekPlan d bl fuel s (flatList calls goals) .fresh = .ok (some calls, memo)) ↔
        Checkable d bl s calls goals)) ∧
    (Blocked d bl s calls →
      ((∃ memo, twSeekPlan d bl fuel s (flatList calls goals) .fresh = .ok (none, memo)) ↔
        Checkable d bl s calls goals)) := by
  have checkable {r : Option (List (TwCall F))}
      (sought : ∃ memo, twSeekPlan d bl fuel s (flatList calls goals) .fresh = .ok (r, memo)) :
      Checkable d bl s calls goals := by
    obtain ⟨memo, sought⟩ := sought
    obtain ⟨w, walked⟩ := walk_of_twSeekPlan sought
    exact checkable_of_walk actions rfl walked
  constructor
  · rintro allowed ⟨t, applies, met⟩
    refine ⟨checkable, fun checks => ?_⟩
    exact twSeekPlan_of_walk (r := some calls) fuel (walk_flatList_done allowed applies checks met [] rfl)
  · intro blocked
    refine ⟨checkable, fun checks => ?_⟩
    exact twSeekPlan_of_walk (r := none) fuel (walk_flatList_dead actions blocked checks [] rfl)

/-- One action, which takes the relation graph away. -/
def resetDomain : TwDomain Int where
  actions := OrderedMap.empty.set "reset" fun s _ => some { s with rebacGraph := none }
  taskMethods := .empty
  actionDurations := .empty

/-- A state whose graph has an edge. -/
def guardedState : TwState Int where
  vars := .empty
  rebacGraph := some (TwReBAC.TwReBACGraph.empty.addEdge "alice" "vault" "PARTNER_OF")
  rebacFuel := 8

/-- The text of an expression with a number that `std::stod` refuses. Where there is no graph the binding is met. -/
def brokenGoal : TwMultiGoal Int := ⟨[⟨"\x7b\"type\":-\x7d", "alice", .nil⟩]⟩

/-- The oracle checks the multigoal before the first call, and the check throws, whether the call is blacklisted or
    leads to a state in which the multigoal holds. -/
theorem twSeekPlan_throws_brokenGoal :
    (execute resetDomain guardedState [⟨"reset", []⟩]).map brokenGoal.isSatisfied = some (.ok true) ∧
      (twSeekPlan resetDomain [] 0 guardedState (flatList [⟨"reset", []⟩] [brokenGoal]) .fresh).map Prod.fst =
        .error .stod ∧
      (twSeekPlan resetDomain ["reset"] 0 guardedState (flatList [⟨"reset", []⟩] [brokenGoal]) .fresh).map Prod.fst =
        .error .stod :=
  ⟨by decide +kernel, by decide +kernel, by decide +kernel⟩

theorem twSeekPlan_flatList_lamp :
    ∃ memo, twSeekPlan lampDomain [] 0 .empty (flatList [⟨"flip", [.string "hall"]⟩] [⟨[⟨"lamp", "hall", .bool true⟩]⟩])
      .fresh = .ok (some [⟨"flip", [.string "hall"]⟩], memo) := by
  refine ((twSeekPlan_flatList lampDomain [] 0 .empty _ _ (by decide +kernel)).1 (fun _ _ => rfl)
    ⟨lampOn, rfl, fun mg mem => ?_⟩).mpr ?_
  · obtain rfl := List.mem_singleton.mp mem
    decide +kernel
  · intro front u part free reached mg mem
    obtain rfl := List.mem_singleton.mp mem
    cases front with
    | nil =>
      obtain rfl := Option.some.inj reached
      exact ⟨false, by decide +kernel⟩
    | cons c front =>
      obtain ⟨rfl, rest⟩ := List.cons_prefix_cons.mp part
      obtain rfl := List.prefix_nil.mp rest
      obtain rfl := Option.some.inj reached
      exact ⟨true, by decide +kernel⟩

end WeftWarp
