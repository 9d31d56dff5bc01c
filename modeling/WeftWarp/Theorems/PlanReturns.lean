import WeftWarp.Theorems.PlanSound

/-! # Where planning can throw

Planning throws only at a goal whose variable is the text of an unreadable relation expression. A goal that was
checked once in a run can be checked in every state of it. -/

namespace WeftWarp

open TwJson (Thrown)
open TwReBAC (TwReBACGraph)

variable {F : Type} [Cxx F] {d : TwDomain F} {bl : TwBlacklist}

/-! ### What a run preserves -/

/-- The bindings that a task asks for. -/
def TwTask.bindings : TwTask F → List (TwGoalBinding F)
  | .call _ => []
  | .goal g => g.bindings
  | .multiGoal mg => mg.bindings

/-- The state has the property `P`, and every binding on the list the property `B`. -/
structure Admits (P : TwState F → Prop) (B : TwGoalBinding F → Prop) (x : Config F) : Prop where
  state : P x.1
  bindings : ∀ t ∈ x.2, ∀ b ∈ t.bindings, B b

/-- Actions keep `P`, and methods return calls only, as those of a loaded document do. -/
structure Closed (d : TwDomain F) (P : TwState F → Prop) : Prop where
  action : ∀ {name act s args s'}, d.actions.find? name = some act → act s args = some s' → P s → P s'
  method : ∀ {name methods method s args subs}, d.taskMethods.find? name = some methods → method ∈ methods →
    method s args = some subs → ∀ t ∈ subs, t.bindings = []

theorem unmet_of_bindingsUnsatisfied {s : TwState F} : ∀ {bs unmet : List (TwGoalBinding F)},
    bindingsUnsatisfied s bs = .ok unmet → ∀ b ∈ unmet, b ∈ bs ∧ b.satisfied s = .ok false
  | [], unmet, result, b, member => by
    cases result
    cases member
  | c :: bs, unmet, result, b, member => by
    rw [bindingsUnsatisfied] at result
    cases sat : c.satisfied s with
    | error e => simp [sat] at result
    | ok sat' =>
      cases later : bindingsUnsatisfied s bs with
      | error e => simp [sat, later, Except.map] at result
      | ok unmet' =>
        simp only [sat, later, Except.map, Except.ok.injEq] at result
        subst result
        have inLater (inUnmet : b ∈ unmet') : b ∈ c :: bs ∧ b.satisfied s = .ok false :=
          have ⟨inside, unmet⟩ := unmet_of_bindingsUnsatisfied later b inUnmet
          ⟨List.mem_cons_of_mem c inside, unmet⟩
        split at member
        · exact inLater member
        · rename_i failed
          rcases List.mem_cons.mp member with rfl | inUnmet
          · exact ⟨List.mem_cons_self, by rw [sat, Bool.eq_false_of_not_eq_true failed]⟩
          · exact inLater inUnmet

theorem mem_of_bindingsUnsatisfied {s : TwState F} {bs unmet : List (TwGoalBinding F)}
    (result : bindingsUnsatisfied s bs = .ok unmet) : ∀ b ∈ unmet, b ∈ bs :=
  fun b member => (unmet_of_bindingsUnsatisfied result b member).1

section Admits
variable {P : TwState F → Prop} {B : TwGoalBinding F → Prop}

omit [Cxx F] in
theorem Admits.tail {s : TwState F} {t : TwTask F} {rest : List (TwTask F)} (h : Admits P B (s, t :: rest)) :
    Admits P B (s, rest) :=
  ⟨h.state, fun u hu => h.bindings u (List.mem_cons_of_mem t hu)⟩

omit [Cxx F] in
/-- Subtasks that are calls bring no bindings. -/
theorem Admits.prepend {s : TwState F} {subs tasks : List (TwTask F)} (h : Admits P B (s, tasks))
    (calls : ∀ t ∈ subs, t.bindings = []) : Admits P B (s, subs ++ tasks) := by
  refine ⟨h.state, fun t ht b hb => ?_⟩
  rcases List.mem_append.mp ht with ht | ht
  · simp [calls t ht] at hb
  · exact h.bindings t ht b hb

theorem Step.admits (closed : Closed d P) {x y : Config F} {l : Option (TwCall F)} (step : Step d x l y)
    (h : Admits P B x) : Admits P B y := by
  cases step with
  | act ha hs => exact ⟨closed.action ha hs h.state, h.tail.bindings⟩
  | task ha hm hmem hsubs => exact h.tail.prepend (closed.method hm hmem hsubs)
  | goalMet => exact h.tail
  | goalVia hu hm hmem hsubs => exact h.prepend (closed.method hm hmem hsubs)
  | multiMet => exact h.tail
  | @multiVia s mg rest b unmet hu hb =>
    refine ⟨h.state, fun t ht c hc => ?_⟩
    rcases List.mem_cons.mp ht with rfl | ht
    · obtain rfl : c = b := by simpa [TwTask.bindings] using hc
      exact h.bindings (.multiGoal mg) List.mem_cons_self c (mem_of_bindingsUnsatisfied hu c hb)
    · exact h.bindings t ht c hc

theorem Admits.of_run (closed : Closed d P) {x y : Config F} {q : List (TwCall F)} (run : Run (Step d) x q y)
    (h : Admits P B x) : Admits P B y :=
  run.invariant (fun _ _ _ step hx => step.admits closed hx) h

end Admits

/-! ### The walk as a run -/

theorem run_of_walk {tasks : List (TwTask F)} {cache : TwWitnessScanCache} {s' : TwState F} {t : TwTask F}
    {rest' : List (TwTask F)} {p : List (TwCall F)} : ∀ {rest : List (TwTask F)} {idx : Nat} {s : TwState F}
    {plan : List (TwCall F)}, walk d bl tasks cache idx s plan rest = .ok (.branch p s' t rest') →
    (∃ q, Run (Step d) (s, rest) q (s', t :: rest')) ∧ headOf d bl s' t = .ok .undecided
  | [], _, _, _, h => by simp [walk] at h
  | u :: rest, idx, s, plan, h => by
    rw [walk_cons] at h
    split at h
    · simp at h
    · split at h
      · simp at h
      · split at h
        · simp at h
        · rename_i head
          obtain ⟨⟨q, run⟩, undecided⟩ := run_of_walk h
          exact ⟨⟨q, .silent (step_of_met head) run⟩, undecided⟩
        · rename_i c s₁ head
          obtain ⟨⟨q, run⟩, undecided⟩ := run_of_walk h
          obtain ⟨rfl, -, act, ha, hs⟩ := acts_inv head
          exact ⟨⟨c :: q, .label (.act ha hs) run⟩, undecided⟩
        · simp at h
        · rename_i head
          simp only [Except.ok.injEq, Walk.branch.injEq] at h
          obtain ⟨-, rfl, rfl, rfl⟩ := h
          exact ⟨⟨[], .refl _⟩, head⟩

theorem run_of_seekExpand {x y : Config F} {p : List (TwCall F)} {alts : List (Except Thrown (Config F))}
    (hx : seekExpand d bl x = .ok (.branch p alts)) (hy : .ok y ∈ alts) : ∃ q, Run (Step d) x q y := by
  obtain ⟨w, hw, expansion⟩ := seekExpand_eq_ok_iff.mp hx
  cases w with
  | done plan => cases expansion
  | dead => cases expansion
  | branch plan s t rest =>
    cases expansion
    obtain ⟨⟨q, run⟩, undecided⟩ := run_of_walk hw
    exact ⟨_, run.trans (.silent (step_of_mem_branchAlts undecided hy) (.refl y))⟩

/-! ### Checks that do not throw -/

/-- Checking the bindings throws nothing in the state `s`. -/
def Total (s : TwState F) (bs : List (TwGoalBinding F)) : Prop := ∀ b ∈ bs, ∃ sat, b.satisfied s = .ok sat

section Total
variable {s : TwState F} {bs : List (TwGoalBinding F)} {tasks : List (TwTask F)}

theorem Total.satisfied : ∀ {bs : List (TwGoalBinding F)}, Total s bs → ∃ sat, bindingsSatisfied s bs = .ok sat
  | [], _ => ⟨true, rfl⟩
  | b :: bs, total => by
    obtain ⟨sat, hsat⟩ := total b List.mem_cons_self
    rw [bindingsSatisfied, hsat]
    cases sat with
    | false => exact ⟨false, rfl⟩
    | true => exact Total.satisfied fun c hc => total c (List.mem_cons_of_mem b hc)

theorem Total.unsatisfied : ∀ {bs : List (TwGoalBinding F)}, Total s bs →
    ∃ unmet, bindingsUnsatisfied s bs = .ok unmet
  | [], _ => ⟨[], rfl⟩
  | b :: bs, total => by
    obtain ⟨sat, hsat⟩ := total b List.mem_cons_self
    obtain ⟨unmet, hunmet⟩ := Total.unsatisfied fun c hc => total c (List.mem_cons_of_mem b hc)
    rw [bindingsUnsatisfied, hsat, hunmet]
    exact ⟨_, rfl⟩

theorem Total.plausible (total : Total s bs) : ∃ r, bindingsPlausible d s bs = .ok r := by
  obtain ⟨sat, hsat⟩ := total.satisfied
  obtain ⟨unmet, hunmet⟩ := total.unsatisfied
  rw [bindingsPlausible, hsat, hunmet]
  cases sat <;> exact ⟨_, rfl⟩

theorem Total.head (total : Total s bs) : ∃ head, bindingsHead s bs = .ok head := by
  obtain ⟨sat, hsat⟩ := total.satisfied
  rw [bindingsHead, hsat]
  exact ⟨_, rfl⟩

variable {t : TwTask F}

theorem headOf_isOk (total : Total s t.bindings) : ∃ head, headOf d bl s t = .ok head := by
  cases t with
  | call c => exact ⟨_, rfl⟩
  | goal g => exact Total.head total
  | multiGoal mg => exact Total.head total

theorem taskWitness_isOk (total : Total s t.bindings) : ∃ w, taskWitness d s t = .ok w := by
  cases t with
  | call c => exact ⟨_, rfl⟩
  | goal g =>
    obtain ⟨sat, hsat⟩ : ∃ sat, g.isSatisfied s = .ok sat := Total.satisfied total
    obtain ⟨unmet, hunmet⟩ : ∃ unmet, g.unsatisfied s = .ok unmet := Total.unsatisfied total
    rw [taskWitness, goalWitness, hsat, hunmet]
    cases sat <;> exact ⟨_, rfl⟩
  | multiGoal mg =>
    obtain ⟨sat, hsat⟩ : ∃ sat, mg.isSatisfied s = .ok sat := Total.satisfied total
    rw [taskWitness, hsat]
    exact ⟨_, rfl⟩

theorem scanTasks_isOk : ∀ {tasks : List (TwTask F)} (n : Int × Int), (∀ t ∈ tasks, Total s t.bindings) →
    ∃ m, scanTasks d s n tasks = .ok m
  | [], n, _ => ⟨n, rfl⟩
  | t :: tasks, n, total => by
    obtain ⟨w, hw⟩ := taskWitness_isOk (d := d) (total t List.mem_cons_self)
    rw [scanTasks, hw]
    exact scanTasks_isOk _ fun u hu => total u (List.mem_cons_of_mem t hu)

theorem oracle_isOk (total : ∀ t ∈ tasks, Total s t.bindings) : ∃ wr, twWitnessOracleGoalReach s tasks d = .ok wr := by
  obtain ⟨m, hm⟩ := scanTasks_isOk (d := d) (0, 0) total
  rw [twWitnessOracleGoalReach, hm]
  exact ⟨_, rfl⟩

theorem twTaskShallowPlausible_isOk (total : Total s t.bindings) : ∃ r, twTaskShallowPlausible d bl s t = .ok r := by
  cases t with
  | call c =>
    rw [twTaskShallowPlausible]
    split <;> exact ⟨_, rfl⟩
  | goal g => exact Total.plausible total
  | multiGoal mg => exact Total.plausible total

theorem twPrefixPlausible_isOk : ∀ {probe : Nat} {tasks : List (TwTask F)}, (∀ t ∈ tasks, Total s t.bindings) →
    ∃ r, twPrefixPlausible d bl s probe tasks = .ok r
  | 0, _, _ => ⟨true, by rw [twPrefixPlausible]⟩
  | _ + 1, [], _ => ⟨true, by simp [twPrefixPlausible]⟩
  | probe + 1, t :: tasks, total => by
    obtain ⟨r, hr⟩ : ∃ r, twTaskShallowPlausible d bl s t = .ok r :=
      twTaskShallowPlausible_isOk (total t List.mem_cons_self)
    rw [twPrefixPlausible, hr]
    cases r with
    | false => exact ⟨false, rfl⟩
    | true => exact twPrefixPlausible_isOk fun u hu => total u (List.mem_cons_of_mem t hu)

theorem methodAlts_isOk {skipped : Nat → Bool} {args : List (TwValue F)} {extend : List (TwTask F) → List (TwTask F)} :
    ∀ {m : Nat} {methods : List (TwMethodFn F)} {seen : List UInt64},
    (∀ method ∈ methods, ∀ subs, method s args = some subs → ∀ t ∈ extend subs, Total s t.bindings) →
    ∀ a ∈ methodAlts d bl s skipped args extend m methods seen, ∃ y, a = .ok y
  | m, [], seen, _, a, member => by simp [methodAlts] at member
  | m, method :: methods, seen, total, a, member => by
    have later {m seen} (member : a ∈ methodAlts d bl s skipped args extend m methods seen) : ∃ y, a = .ok y :=
      methodAlts_isOk (fun method' hm => total method' (List.mem_cons_of_mem method hm)) a member
    rw [methodAlts] at member
    split at member
    · exact later member
    · split at member
      · exact later member
      · rename_i subs hsubs
        obtain ⟨r, hr⟩ : ∃ r, twPrefixPlausible d bl s 2 (extend subs) = .ok r :=
          twPrefixPlausible_isOk (total method List.mem_cons_self subs hsubs)
        simp only [hr] at member
        split at member
        · exact later member
        · cases r with
          | false => exact later member
          | true =>
            rcases List.mem_cons.mp member with rfl | member
            · exact ⟨_, rfl⟩
            · exact later member

end Total

/-! ### Searches that do not throw -/

/-- Checking the binding throws in no state with the graph `g`. -/
def TwGoalBinding.Readable (g : Option (TwReBACGraph F)) (b : TwGoalBinding F) : Prop :=
  ∀ s : TwState F, s.rebacGraph = g → ∃ sat, b.satisfied s = .ok sat

/-- A configuration in which every goal can be checked, and stays so. -/
abbrev Quiet (g : Option (TwReBACGraph F)) : Config F → Prop :=
  Admits (fun s => s.rebacGraph = g) (TwGoalBinding.Readable g)

section Quiet
variable {g : Option (TwReBACGraph F)} {x : Config F} {s : TwState F} {tasks : List (TwTask F)}

theorem Quiet.total (quiet : Quiet g x) : ∀ t ∈ x.2, Total x.1 t.bindings :=
  fun t ht b hb => quiet.bindings t ht b hb x.1 quiet.state

theorem namedAlts_isOk (closed : Closed d fun s => s.rebacGraph = g) {name : String} {args : List (TwValue F)}
    (quiet : Quiet g (s, tasks)) :
    ∀ a ∈ namedAlts d bl s .empty name args (fun subs => subs ++ tasks), ∃ y, a = .ok y := by
  rw [namedAlts]
  cases hm : d.taskMethods.find? name with
  | none => simp
  | some methods =>
    exact methodAlts_isOk fun method hmem subs hsubs => Quiet.total (quiet.prepend (closed.method hm hmem hsubs))

theorem branchAlts_isOk (closed : Closed d fun s => s.rebacGraph = g) {t : TwTask F} {rest : List (TwTask F)}
    (quiet : Quiet g (s, t :: rest)) : ∀ a ∈ branchAlts d bl s .empty rest t, ∃ y, a = .ok y := by
  have total : Total s t.bindings := quiet.total t List.mem_cons_self
  cases t with
  | call c => exact namedAlts_isOk closed quiet.tail
  | goal g' =>
    obtain ⟨unmet, hunmet⟩ : ∃ unmet, g'.unsatisfied s = .ok unmet := Total.unsatisfied total
    rw [branchAlts, hunmet]
    cases unmet with
    | nil => simp
    | cons b unmet => exact namedAlts_isOk closed quiet
  | multiGoal mg =>
    obtain ⟨unmet, hunmet⟩ : ∃ unmet, mg.unsatisfied s = .ok unmet := Total.unsatisfied total
    rw [branchAlts, hunmet]
    intro a ha
    obtain ⟨b, -, rfl⟩ := List.mem_map.mp ha
    exact ⟨_, rfl⟩

theorem walk_isOk (closed : Closed d fun s => s.rebacGraph = g) :
    ∀ {rest : List (TwTask F)} {idx : Nat} {s : TwState F} {plan : List (TwCall F)}, tasks.drop idx = rest →
    Quiet g (s, rest) → ∃ w, walk d bl tasks (twBuildWitnessScanCache tasks d) idx s plan rest = .ok w
  | [], _, _, plan, _, _ => ⟨.done plan, by rw [walk]⟩
  | t :: rest, idx, s, plan, drop, quiet => by
    have drop' := drop_succ_of_drop drop
    obtain ⟨wr, hwr⟩ := oracle_isOk (d := d) quiet.total
    obtain ⟨head, hhead⟩ : ∃ head, headOf d bl s t = .ok head := headOf_isOk (quiet.total t List.mem_cons_self)
    rw [walk_cons, oracleCached_of_drop d s drop, hwr, hhead]
    dsimp only
    split
    · exact ⟨.dead, rfl⟩
    · cases head with
      | met => exact walk_isOk closed drop' quiet.tail
      | acts c s' =>
        obtain ⟨rfl, -, act, ha, hs⟩ := acts_inv hhead
        exact walk_isOk closed drop' ((Step.act ha hs).admits closed quiet)
      | stuck => exact ⟨.dead, rfl⟩
      | undecided => exact ⟨.branch plan s t rest, rfl⟩

theorem seekExpand_isOk (closed : Closed d fun s => s.rebacGraph = g) (quiet : Quiet g x) :
    ∃ ex, seekExpand d bl x = .ok ex ∧
      ∀ p alts, ex = .branch p alts → ∀ a ∈ alts, ∃ y, a = .ok y ∧ Quiet g y := by
  obtain ⟨w, hw⟩ : ∃ w, walk d bl x.2 (twBuildWitnessScanCache x.2 d) 0 x.1 [] x.2 = .ok w :=
    walk_isOk closed List.drop_zero quiet
  have hx := seekExpand_eq_ok_iff.mpr ⟨w, hw, rfl⟩
  refine ⟨w.expansion d bl, hx, fun p alts branch a ha => ?_⟩
  rw [branch] at hx
  cases w with
  | done plan => cases branch
  | dead => cases branch
  | branch plan s t rest =>
    obtain ⟨⟨q, run⟩, -⟩ := run_of_walk hw
    cases branch
    obtain ⟨y, rfl⟩ := branchAlts_isOk closed (Admits.of_run closed run quiet) a ha
    obtain ⟨q', run'⟩ := run_of_seekExpand hx ha
    exact ⟨y, rfl, Admits.of_run closed run' quiet⟩

/-- Planning does not throw where every goal of the list can be checked. -/
theorem twPlan_isOk (closed : Closed d fun s => s.rebacGraph = g) (quiet : Quiet g (s, tasks)) :
    ∃ r, twPlan s tasks d bl = .ok r := by
  have mirrors : Mirrors true (twSeekPlan d bl twMaxDepth s tasks .fresh) _ :=
    twSeekPlan_mirrors twMaxDepth s tasks carries_fresh
  obtain ⟨r, hr⟩ : ∃ r, memoSearch (seekExpand d bl) .atChoice (seekPolicy true) twMaxDepth (s, tasks) [] = .ok r :=
    memoSearch_isOk (fun x hx => seekExpand_isOk closed hx) twMaxDepth quiet []
  rw [hr] at mirrors
  rw [twPlan]
  generalize twSeekPlan d bl twMaxDepth s tasks .fresh = r' at mirrors ⊢
  cases mirrors <;> exact ⟨_, rfl⟩

/-! ### Goals of a decomposed list -/

theorem satisfied_of_bindingsSatisfied : ∀ {bs : List (TwGoalBinding F)},
    bindingsSatisfied s bs = .ok true → ∀ b ∈ bs, b.satisfied s = .ok true
  | b :: bs, all, c, member => by
    rw [bindingsSatisfied] at all
    split at all
    · simp at all
    · simp at all
    · rename_i sat
      rcases List.mem_cons.mp member with rfl | member
      · exact sat
      · exact satisfied_of_bindingsSatisfied all c member

theorem met_of_run {y : Config F} {q : List (TwCall F)} (run : Run (Step d) x q y) (done : y.2 = []) :
    ∀ t ∈ x.2, ∀ b ∈ t.bindings,
      ∃ calls z, calls <+: q ∧ Run (Step d) x calls z ∧ b.satisfied z.1 = .ok true := by
  induction run with
  | refl x =>
    intro t ht
    simp [done] at ht
  | @step x y z l q step _ ih =>
    intro t ht b hb
    -- The task is met at once, or it is still on the list behind the step.
    have later (still : t ∈ y.2) :
        ∃ calls z, calls <+: l.toList ++ q ∧ Run (Step d) x calls z ∧ b.satisfied z.1 = .ok true := by
      obtain ⟨calls, z, part, reached, met⟩ := ih done t still b hb
      exact ⟨l.toList ++ calls, z, (List.prefix_append_right_inj _).mpr part, .step step reached, met⟩
    cases step with
    | act ha hs =>
      rcases List.mem_cons.mp ht with rfl | ht
      · simp [TwTask.bindings] at hb
      · exact later ht
    | task ha hm hmem hsubs =>
      rcases List.mem_cons.mp ht with rfl | ht
      · simp [TwTask.bindings] at hb
      · exact later (List.mem_append_right _ ht)
    | goalMet met =>
      rcases List.mem_cons.mp ht with rfl | ht
      · exact ⟨[], _, List.nil_prefix, .refl _, satisfied_of_bindingsSatisfied met b hb⟩
      · exact later ht
    | goalVia => exact later (List.mem_append_right _ ht)
    | multiMet met =>
      rcases List.mem_cons.mp ht with rfl | ht
      · exact ⟨[], _, List.nil_prefix, .refl _, satisfied_of_bindingsSatisfied met b hb⟩
      · exact later ht
    | multiVia => exact later (List.mem_cons_of_mem _ ht)

/-- A binding that was checked in one state can be checked in every state with the same graph. -/
theorem readable_of_satisfied {b : TwGoalBinding F} {sat : Bool} (checked : b.satisfied s = .ok sat) :
    b.Readable s.rebacGraph := by
  intro s' graph
  rw [TwGoalBinding.satisfied, graph]
  rw [TwGoalBinding.satisfied] at checked
  cases hg : s.rebacGraph with
  | none => exact ⟨_, rfl⟩
  | some g =>
    simp only [hg] at checked ⊢
    split
    · exact ⟨_, rfl⟩
    · rename_i edges
      rw [if_neg edges] at checked
      split
      · rename_i brace
        rw [if_pos brace] at checked
        split
        · rename_i e unreadable
          simp [unreadable] at checked
        · split <;> exact ⟨_, rfl⟩
      · exact ⟨_, rfl⟩

/-- Planning for a list that has a decomposition does not throw in any state with the same graph. -/
theorem twPlan_isOk_of_decomposes (closed : Closed d fun s => s.rebacGraph = g) {s' : TwState F}
    {plan : List (TwCall F)} (decomposes : Decomposes d s tasks plan) (graph : s.rebacGraph = g)
    (graph' : s'.rebacGraph = g) : ∃ r, twPlan s' tasks d bl = .ok r := by
  obtain ⟨t, run⟩ := decomposes
  refine twPlan_isOk closed ⟨graph', fun u hu b hb => ?_⟩
  obtain ⟨calls, w, -, reached, sat⟩ := met_of_run run rfl u hu b hb
  have graphW : w.1.rebacGraph = g :=
    (Admits.of_run (B := fun _ => True) closed reached ⟨graph, fun _ _ _ _ => trivial⟩).state
  exact graphW ▸ readable_of_satisfied sat

end Quiet
end WeftWarp
