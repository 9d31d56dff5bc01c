import WeftWarp.Theorems.Exclusion

/-! # Incremental replanning

`tw_replan_incremental` keeps the steps before the subtree it retries and plans the whole task list again behind
them. The tasks that these steps have completed are then performed twice. -/

namespace WeftWarp

variable {F : Type} [Cxx F] {d : TwDomain F} {s : TwState F} {tasks : List (TwTask F)}

/-- The failed step lies in the subtree of node `a`, the nearest one above it that has methods left to try. -/
def RetriesAt (d : TwDomain F) (tree : TwSolTree F) (failStep : Int) (a : Nat) : Prop :=
  ∃ node, tree.actionNodes[failStep.toNat]? = some node ∧ tree.nearestRetryableAncestor d node = a

omit [Cxx F] in
theorem TwSolTree.retryableFrom_isNode {t : TwSolTree F} {fuel a : Nat} {cur : Int}
    (h : t.retryableFrom d fuel cur = a) : ∃ n, t.nodes[a]? = some n := by
  induction fuel generalizing cur with
  | zero => simp [retryableFrom] at h
  | succ fuel ih =>
    rw [retryableFrom] at h
    split at h
    · omega
    · dsimp only at h
      split at h
      · omega
      · rename_i n hn
        obtain h | h := (ite_eq_or_eq _ _ _).imp h.symm.trans h.symm.trans
        · exact ⟨n, by rwa [← h] at hn⟩
        · exact ih h.symm

omit [Cxx F] in
theorem RetriesAt.isNode {tree : TwSolTree F} {failStep : Int} {a : Nat} (h : RetriesAt d tree failStep a) :
    ∃ n, tree.nodes[a]? = some n := by
  obtain ⟨node, -, h⟩ := h
  rw [TwSolTree.nearestRetryableAncestor] at h
  split at h
  · omega
  · exact TwSolTree.retryableFrom_isNode h

/-- The recovered plan is the kept steps followed by a decomposition of the whole list from the state behind them. -/
theorem twReplanIncremental_suffix {plan newPlan : List (TwCall F)} {tree : TwSolTree F} {failStep : Int} {a : Nat}
    {r : TwReplanResult F} (hfail : 0 ≤ failStep ∧ failStep < plan.length) (ha : RetriesAt d tree failStep a)
    (hr : twReplanIncremental s plan tasks d tree failStep = .ok r) (hnew : r.newPlan = some newPlan) :
    ∃ suffix, newPlan = plan.take (tree.prefixLength a) ++ suffix ∧
      Decomposes d (twSimulate s (plan.take (tree.prefixLength a)) d).state tasks suffix := by
  obtain ⟨n, hn⟩ := ha.isNode
  obtain ⟨node, hnode, hanc⟩ := ha
  have hstep : plan[failStep.toNat]? = some (plan.get ⟨failStep.toNat, by omega⟩) := by simp
  have hsim : (simulateTo s plan d failStep).failStep = failStep := by
    rw [simulateTo, if_pos hfail.1, hstep]
  have hneg : ¬((a : Int) < 0) := by omega
  simp only [twReplanIncremental, hsim, if_neg (not_lt.mpr hfail.1), hnode, hanc, if_neg hneg, Int.toNat_natCast,
    hn] at hr
  cases hp : twPlanWithTree (twSimulate s (plan.take (tree.prefixLength a)) d).state tasks d
      (blacklistStep plan failStep) (OrderedMap.empty.set (twCallKey ⟨n.name, n.args⟩) [n.methodIdx]) with
  | error e => simp [hp, Except.map] at hr
  | ok p =>
    obtain ⟨_ | suffix, tree'⟩ := p <;> simp only [hp, Except.map, Except.ok.injEq] at hr <;> rw [← hr] at hnew
    · cases hnew
    · exact ⟨suffix, (Option.some.inj hnew).symm, decomposes_of_solves (tree_of_twPlanWithTree hp)⟩

/-- A recovered plan is a decomposition of the list when the kept steps have brought the decomposition back to the
    whole list; this is so when no step is kept. -/
theorem twReplanIncremental_decomposes (d : TwDomain F) (s : TwState F) (tasks : List (TwTask F))
    {plan newPlan : List (TwCall F)} {tree : TwSolTree F} {failStep : Int} {a : Nat} {r : TwReplanResult F}
    (hfail : 0 ≤ failStep ∧ failStep < plan.length) (ha : RetriesAt d tree failStep a)
    (hback : ∃ t, Run (Step d) (s, tasks) (plan.take (tree.prefixLength a)) (t, tasks))
    (hr : twReplanIncremental s plan tasks d tree failStep = .ok r) (hnew : r.newPlan = some newPlan) :
    Decomposes d s tasks newPlan := by
  obtain ⟨suffix, rfl, hsuffix⟩ := twReplanIncremental_suffix hfail ha hr hnew
  obtain ⟨t, hrun⟩ := hback
  rw [show (twSimulate s (plan.take (tree.prefixLength a)) d).state = t from
    congrArg TwSimulateResult.state (twSimulate_of_run hrun)] at hsuffix
  obtain ⟨u, hrest⟩ := hsuffix
  exact ⟨u, hrun.trans hrest⟩

/-- A parcel is boxed, then sent by mail or by courier. -/
def parcelDomain : TwDomain Int where
  actions := ((OrderedMap.empty.set "box" fun s _ => some s).set "mail" fun s _ => some s).set "courier" fun s _ => some s
  taskMethods := (OrderedMap.empty.set "pack" [fun _ _ => some [.call ⟨"box", []⟩]]).set "send"
    [fun _ _ => some [.call ⟨"mail", []⟩], fun _ _ => some [.call ⟨"courier", []⟩]]
  actionDurations := .empty

/-- The tree for `pack`. -/
def parcelTree : TwSolTree Int where
  nodes := [⟨.root, -1, [1], "", [], -1, -1, -1⟩, ⟨.task, 0, [2, 3], "pack", [], 0, -1, 0⟩,
    ⟨.action, 1, [], "box", [], -1, 0, -1⟩, ⟨.task, 1, [4], "send", [], 0, -1, 1⟩,
    ⟨.action, 3, [], "mail", [], -1, 1, -1⟩]
  actionNodes := [2, 4]

/-- Mailing fails; the recovered plan boxes the parcel a second time. -/
theorem twReplanIncremental_boxes_twice :
    twPlanWithTree .empty [.call ⟨"pack", []⟩, .call ⟨"send", []⟩] parcelDomain [] .empty =
        .ok (some [⟨"box", []⟩, ⟨"mail", []⟩], parcelTree) ∧
      RetriesAt parcelDomain parcelTree 1 3 ∧
      (twReplanIncremental .empty [⟨"box", []⟩, ⟨"mail", []⟩] [.call ⟨"pack", []⟩, .call ⟨"send", []⟩] parcelDomain
        parcelTree 1).map (fun r => (r.recovered, r.newPlan)) =
        .ok (true, some [⟨"box", []⟩, ⟨"box", []⟩, ⟨"courier", []⟩]) ∧
      ¬Decomposes parcelDomain .empty [.call ⟨"pack", []⟩, .call ⟨"send", []⟩]
        [⟨"box", []⟩, ⟨"box", []⟩, ⟨"courier", []⟩] := by
  refine ⟨by decide +kernel, ⟨4, by decide +kernel, by decide +kernel⟩, by decide +kernel, fun h => ?_⟩
  obtain ⟨method, hmem, subs, hsubs, h⟩ := h.task_inv rfl rfl
  obtain rfl := List.mem_singleton.mp hmem
  obtain rfl := Option.some.inj hsubs
  obtain ⟨_, q, -, hq, h⟩ := h.act_inv rfl
  obtain rfl := (List.cons.inj hq).2
  -- The second task is sent by one of its two actions, neither of which boxes.
  obtain ⟨method, hmem, subs, hsubs, h⟩ := h.task_inv rfl rfl
  rcases List.mem_cons.mp hmem with rfl | hmem
  · obtain rfl := Option.some.inj hsubs
    obtain ⟨_, _, -, hq, -⟩ := h.act_inv rfl
    simp at hq
  · obtain rfl := List.mem_singleton.mp hmem
    obtain rfl := Option.some.inj hsubs
    obtain ⟨_, _, -, hq, -⟩ := h.act_inv rfl
    simp at hq

/-- A loop that takes its step once, and then stops or halts. -/
def loopDomain : TwDomain Int where
  actions := ((OrderedMap.empty.set "step" fun s _ => some (s.setVar "done" (.bool true))).set "stop"
    fun s _ => some s).set "halt" fun s _ => some s
  taskMethods := OrderedMap.empty.set "loop"
    [fun s _ => if s.hasVar "done" then none else some [.call ⟨"step", []⟩, .call ⟨"loop", []⟩],
      fun _ _ => some [.call ⟨"stop", []⟩], fun _ _ => some [.call ⟨"halt", []⟩]]
  actionDurations := .empty

/-- The tree for `loop`. -/
def loopTree : TwSolTree Int where
  nodes := [⟨.root, -1, [1], "", [], -1, -1, -1⟩, ⟨.task, 0, [2, 3], "loop", [], 0, -1, 0⟩,
    ⟨.action, 1, [], "step", [], -1, 0, -1⟩, ⟨.task, 1, [4], "loop", [], 1, -1, 1⟩,
    ⟨.action, 3, [], "stop", [], -1, 1, -1⟩]
  actionNodes := [2, 4]

/-- Stopping fails; the step is kept, behind which the whole list is left to do. -/
theorem twReplanIncremental_decomposes_loop :
    twPlanWithTree .empty [.call ⟨"loop", []⟩] loopDomain [] .empty =
        .ok (some [⟨"step", []⟩, ⟨"stop", []⟩], loopTree) ∧
    ∃ r, twReplanIncremental .empty [⟨"step", []⟩, ⟨"stop", []⟩] [.call ⟨"loop", []⟩] loopDomain loopTree 1 = .ok r ∧
      r.newPlan = some [⟨"step", []⟩, ⟨"halt", []⟩] ∧
      Decomposes loopDomain .empty [.call ⟨"loop", []⟩] [⟨"step", []⟩, ⟨"halt", []⟩] := by
  refine ⟨by decide +kernel, ?_⟩
  have hkept : [⟨"step", []⟩, (⟨"stop", []⟩ : TwCall Int)].take (loopTree.prefixLength 3) = [⟨"step", []⟩] := by
    decide +kernel
  have hback : ∃ t, Run (Step loopDomain) (.empty, [.call ⟨"loop", []⟩])
      ([⟨"step", []⟩, ⟨"stop", []⟩].take (loopTree.prefixLength 3)) (t, [.call ⟨"loop", []⟩]) := by
    rw [hkept]
    exact ⟨_, .silent (.task rfl rfl List.mem_cons_self rfl) (.label (.act rfl rfl) (.refl _))⟩
  have hnew : (twReplanIncremental .empty [⟨"step", []⟩, ⟨"stop", []⟩] [.call ⟨"loop", []⟩] loopDomain loopTree 1).map
    TwReplanResult.newPlan = .ok (some [⟨"step", []⟩, ⟨"halt", []⟩]) := by decide +kernel
  cases hr : twReplanIncremental .empty [⟨"step", []⟩, ⟨"stop", []⟩] [.call ⟨"loop", []⟩] loopDomain loopTree 1 with
  | error e => simp [hr, Except.map] at hnew
  | ok r =>
    simp only [hr, Except.map, Except.ok.injEq] at hnew
    exact ⟨r, rfl, hnew, twReplanIncremental_decomposes (a := 3) loopDomain .empty _ (by decide)
      ⟨4, by decide +kernel, by decide +kernel⟩ hback hr hnew⟩

end WeftWarp
