import WeftWarp.Theorems.PlanSound
import WeftWarp.Theorems.TreeGrowth
import WeftWarp.Theorems.TreeRefines

/-! # Blacklisted commands and skipped methods

No plan has a blacklisted command, and no node of a derivation tree was decomposed by a skipped method. The
latter is an invariant of the tree along the whole search, backtracking included. -/

namespace WeftWarp

open TwJson (Thrown)

variable {F : Type} [Cxx F]

/-! ### Invariants of the tree -/

/-- The tree operations of a search that skips the methods of `skip` keep `P`. -/
structure TreeClosed (skip : TwMethodSkip) (P : TwSolTree F → Prop) : Prop where
  addMethod : ∀ (memo : TwTreeMemo F) (kind : TwSolKind) (parent : Int) (name : String) (args : List (TwValue F))
    (m : Nat), skip.skips name args m = false → P memo.tree → P (memo.addMethod kind parent name args m).2.tree
  addAction : ∀ (memo : TwTreeMemo F) (parent : Int) (c : TwCall F), P memo.tree → P (memo.addAction parent c).tree
  restore : ∀ (t : TwSolTree F) (cp : Nat), P t → P (t.restore cp)

/-- A search that returns leaves a tree with `P`. -/
def TreeKeeps (P : TwSolTree F → Prop) (r : SeekTree F) : Prop := ∀ a memo, r = .ok (a, memo) → P memo.tree

section Keeps
variable {d : TwDomain F} {bl : TwBlacklist} {skip : TwMethodSkip} {P : TwSolTree F → Prop}
variable {memo : TwTreeMemo F} {seek : List (TwTask F) → Int → TwTreeMemo F → SeekTree F}

omit [Cxx F] in
theorem TreeKeeps.ok (h : P memo.tree) (a : Option (List (TwCall F))) : TreeKeeps P (.ok (a, memo)) := by
  rintro _ _ ⟨⟩
  exact h

omit [Cxx F] in
theorem TreeKeeps.error (e : Thrown) : TreeKeeps P (.error e : SeekTree F) := by
  rintro _ _ ⟨⟩

omit [Cxx F] in
theorem TreeKeeps.orMark {r : SeekTree F} (h : TreeKeeps P r) (key : TwMemoKey) : TreeKeeps P (r.orMark key) := by
  match r with
  | .error e => exact .error e
  | .ok (some q, memo) => exact h
  | .ok (none, memo) =>
    refine .ok ?_ none
    rw [tree_markFail]
    exact h none memo rfl

variable (hP : TreeClosed skip P)
include hP

variable {parent : Int} {args : List (TwValue F)} {extend : List (TwTask F) → List (TwTask F)} {s : TwState F}
  {kind : TwSolKind} {name : String}

theorem tryTreeMethods_keeps (hseek : ∀ tasks parent memo, P memo.tree → TreeKeeps P (seek tasks parent memo)) :
    ∀ {methods : List (TwMethodFn F)} {m : Nat} {seen : List UInt64} {memo : TwTreeMemo F}, P memo.tree →
      TreeKeeps P (tryTreeMethods d bl skip s parent seek kind name args extend m methods seen memo)
  | [], m, seen, memo, h => .ok h none
  | method :: methods, m, seen, memo, h => by
    rw [tryTreeMethods]
    cases hskip : skip.skips name args m with
    | true => exact tryTreeMethods_keeps hseek h
    | false =>
      simp only [Bool.false_eq_true, if_false]
      cases method s args with
      | none => exact tryTreeMethods_keeps hseek h
      | some subs =>
        have hgrown := hP.addMethod memo kind parent name args m hskip h
        dsimp only
        split
        · exact tryTreeMethods_keeps hseek (hP.restore _ _ hgrown)
        · cases twPrefixPlausible d bl s 2 (extend subs) with
          | error e => exact .error e
          | ok passes =>
            cases passes with
            | false => exact tryTreeMethods_keeps hseek (hP.restore _ _ hgrown)
            | true =>
              have hsub := hseek (extend subs) (memo.addMethod kind parent name args m).1 _ hgrown
              dsimp only
              generalize seek (extend subs) _ _ = r at hsub ⊢
              match r with
              | .error e => exact .error e
              | .ok (some q, memo') => exact .ok (hsub _ _ rfl) (some q)
              | .ok (none, memo') => exact tryTreeMethods_keeps hseek (hP.restore _ _ (hsub _ _ rfl))

theorem seekTreeMethods_keeps (hseek : ∀ tasks parent memo, P memo.tree → TreeKeeps P (seek tasks parent memo))
    (h : P memo.tree) : TreeKeeps P (seekTreeMethods d bl skip s parent seek kind name args extend memo) := by
  rw [seekTreeMethods]
  cases d.taskMethods.find? name with
  | none => exact .ok h none
  | some methods => exact tryTreeMethods_keeps hP hseek h

omit hP [Cxx F] in
theorem tryTreeBindings_keeps (hseek : ∀ tasks parent memo, P memo.tree → TreeKeeps P (seek tasks parent memo))
    {mg : TwMultiGoal F} {rest : List (TwTask F)} :
    ∀ {unmet : List (TwGoalBinding F)} {memo : TwTreeMemo F}, P memo.tree →
      TreeKeeps P (tryTreeBindings parent seek mg rest unmet memo)
  | [], memo, h => .ok h none
  | b :: unmet, memo, h => by
    rw [tryTreeBindings]
    have hsub := hseek (.goal ⟨[b]⟩ :: .multiGoal mg :: rest) parent memo h
    generalize seek _ parent memo = r at hsub ⊢
    rcases r with e | ⟨_ | q, memo'⟩
    · exact .error e
    · exact tryTreeBindings_keeps hseek (hsub _ _ rfl)
    · exact .ok (hsub _ _ rfl) (some q)

theorem treeStep_keeps {seek : TwState F → List (TwTask F) → Int → TwTreeMemo F → SeekTree F}
    (hseek : ∀ s tasks parent memo, P memo.tree → TreeKeeps P (seek s tasks parent memo)) (s : TwState F)
    (tasks : List (TwTask F)) (parent : Int) (h : P memo.tree) :
    TreeKeeps P (treeStep d bl skip seek s tasks parent memo) := by
  have hmark : ∀ (memo : TwTreeMemo F) key, P memo.tree → TreeKeeps P (.ok (none, memo.markFail key)) := by
    intro memo key h
    exact (TreeKeeps.ok h none).orMark key
  have level := treeStep_level d bl skip seek s tasks parent memo
  generalize treeStep d bl skip seek s tasks parent memo = r at level ⊢
  cases level with
  | done => exact .ok h _
  | thrown e => exact .error e
  | failed => exact .ok h none
  | marked key => exact hmark memo key h
  | goalMet => exact hseek s _ parent memo h
  | goalVia key => exact (seekTreeMethods_keeps hP (hseek s) h).orMark key
  | multiMet => exact hseek s _ parent memo h
  | multiVia key => exact (tryTreeBindings_keeps (hseek s) h).orMark key
  | task key => exact (seekTreeMethods_keeps hP (hseek s) h).orMark key
  | @act c _ _ _ _ _ _ _ found =>
    exact .ok (hseek _ _ parent _ (hP.addAction memo parent c h) _ _ found) _
  | @undo c _ _ _ _ key _ _ found =>
    exact hmark _ key (hP.restore _ _ (hseek _ _ parent _ (hP.addAction memo parent c h) _ _ found))

theorem twSeekPlanTree_keeps (fuel : Nat) (s : TwState F) (tasks : List (TwTask F)) (parent : Int) (h : P memo.tree) :
    TreeKeeps P (twSeekPlanTree d bl skip fuel s tasks parent memo) := by
  induction fuel generalizing s tasks parent memo with
  | zero => exact .ok h none
  | succ fuel ih => exact treeStep_keeps hP (fun s tasks parent memo h => ih s tasks parent h) s tasks parent h

end Keeps

/-! ### Skipped methods -/

/-- No node of a task or a goal was decomposed by a method that `skip` forbids for its name and arguments. -/
def NodesAllowed (skip : TwMethodSkip) (t : TwSolTree F) : Prop :=
  ∀ n ∈ t.nodes, n.kind = .task ∨ n.kind = .goal →
    n.methodIdx ∉ (skip.find? (twCallKey ⟨n.name, n.args⟩)).getD []

/-- The node without its children. -/
def TwSolNode.bare (n : TwSolNode F) : TwSolNode F := { n with children := [] }

omit [Cxx F] in
theorem map_bare_updateChildren (nodes : List (TwSolNode F)) (p : Int) (f : List Nat → List Nat) :
    (TwSolTree.updateChildren nodes p f).map TwSolNode.bare = nodes.map TwSolNode.bare := by
  refine List.ext_getElem? fun i => ?_
  rw [TwSolTree.updateChildren, List.getElem?_map, List.getElem?_map, List.getElem?_modify]
  cases nodes[i]? with
  | none => rfl
  | some n => by_cases hi : p.toNat = i <;> simp [hi, TwSolNode.bare]

omit [Cxx F] in
theorem map_bare_addNode (t : TwSolTree F) (n : TwSolNode F) :
    (t.addNode n).2.nodes.map TwSolNode.bare = t.nodes.map TwSolNode.bare ++ [n.bare] := by
  rw [TwSolTree.addNode]
  dsimp only
  split <;> simp [map_bare_updateChildren]

omit [Cxx F] in
theorem map_bare_restore (t : TwSolTree F) (cp : Nat) :
    (t.restore cp).nodes.map TwSolNode.bare = (t.nodes.map TwSolNode.bare).take cp := by
  have hfold : ∀ (ns : List (TwSolNode F × Nat)) (nodes : List (TwSolNode F)), (ns.foldl (fun nodes n =>
      if 0 ≤ n.1.parent ∧ n.1.parent < (cp : Int) then
        TwSolTree.updateChildren nodes n.1.parent (·.filter (· ≠ n.2)) else nodes) nodes).map TwSolNode.bare =
      nodes.map TwSolNode.bare := by
    intro ns
    induction ns with
    | nil => exact fun _ => rfl
    | cons n ns ih =>
      intro nodes
      rw [List.foldl_cons, ih]
      split
      · exact map_bare_updateChildren _ _ _
      · rfl
  rw [TwSolTree.restore, List.map_take, hfold]

variable {skip : TwMethodSkip}

/-- The nodes are judged without their children. -/
theorem nodesAllowed_iff {t : TwSolTree F} :
    NodesAllowed skip t ↔ ∀ n ∈ t.nodes.map TwSolNode.bare, n.kind = .task ∨ n.kind = .goal →
      n.methodIdx ∉ (skip.find? (twCallKey ⟨n.name, n.args⟩)).getD [] := by
  rw [NodesAllowed, List.forall_mem_map]
  rfl

theorem nodesAllowed_closed (skip : TwMethodSkip) : TreeClosed skip (NodesAllowed (F := F) skip) where
  addMethod memo kind parent name args m hm h := by
    rw [nodesAllowed_iff] at h ⊢
    rw [TwTreeMemo.addMethod, map_bare_addNode]
    intro n hn
    rcases List.mem_append.mp hn with hn | hn
    · exact h n hn
    · obtain rfl := List.mem_singleton.mp hn
      intro _
      simpa [TwMethodSkip.skips, TwSolNode.bare] using hm
  addAction memo parent c h := by
    rw [nodesAllowed_iff] at h ⊢
    rw [TwTreeMemo.addAction, map_bare_addNode]
    intro n hn
    rcases List.mem_append.mp hn with hn | hn
    · exact h n hn
    · obtain rfl := List.mem_singleton.mp hn
      rintro (hk | hk) <;> cases hk
  restore t cp h := by
    rw [nodesAllowed_iff] at h ⊢
    rw [map_bare_restore]
    exact fun n hn => h n (List.mem_of_mem_take hn)

/-! ### Plans -/

variable {d : TwDomain F} {s : TwState F} {tasks : List (TwTask F)} {bl : TwBlacklist} {tree : TwSolTree F}
  {plan : List (TwCall F)}

theorem twPlanWithTree_eq_ok {plan : Option (List (TwCall F))}
    (h : twPlanWithTree s tasks d bl skip = .ok (plan, tree)) :
    ∃ memo, twSeekPlanTree d bl skip twMaxDepth s tasks 0 ⟨.rooted, some []⟩ = .ok (plan, memo) ∧ memo.tree = tree := by
  rw [twPlanWithTree] at h
  cases hr : twSeekPlanTree d bl skip twMaxDepth s tasks 0 ⟨.rooted, some []⟩ with
  | error e => simp [hr, Except.map] at h
  | ok r =>
    simp only [hr, Except.map, Except.ok.injEq, Prod.mk.injEq] at h
    exact ⟨r.2, by rw [← h.1], h.2⟩

theorem tree_of_twPlanWithTree (h : twPlanWithTree s tasks d bl skip = .ok (some plan, tree)) :
    Solves (treeExpand d bl skip) (s, tasks) plan := by
  obtain ⟨memo, h, -⟩ := twPlanWithTree_eq_ok h
  have hm : TreeMirrors true (twSeekPlanTree d bl skip twMaxDepth s tasks 0 ⟨.rooted, some []⟩) _ :=
    twSeekPlanTree_mirrors twMaxDepth s tasks 0 (show TreeCarries true ⟨.rooted, some []⟩ [] from rfl)
  rw [h] at hm
  generalize hr : memoSearch (treeExpand d bl skip) .atEntry (treePolicy true) twMaxDepth (s, tasks) [] = r at hm
  cases hm with
  | found q memo C => exact memoSearch_sound hr

theorem twReplan_eq_ok {failStep : Int} {r : TwReplanResult F} (h : twReplan s plan tasks d failStep = .ok r) :
    r.simulate = simulateTo s plan d failStep ∧
      twPlan r.simulate.state tasks d (blacklistStep plan r.simulate.failStep) = .ok r.newPlan := by
  rw [twReplan] at h
  cases hp : twPlan (simulateTo s plan d failStep).state tasks d
      (blacklistStep plan (simulateTo s plan d failStep).failStep) with
  | error e => simp [hp, Except.map] at h
  | ok newPlan =>
    simp only [hp, Except.map, Except.ok.injEq] at h
    subst h
    exact ⟨rfl, hp⟩

/-- No plan has a blacklisted command, no tree has a node decomposed by a skipped method, and a replanned plan
    does not have the command that failed. -/
theorem exclusions_respected (d : TwDomain F) (s : TwState F) (tasks : List (TwTask F)) (bl : TwBlacklist) :
    (∀ plan, twPlan s tasks d bl = .ok (some plan) → ∀ c ∈ plan, twCallKey c ∉ bl) ∧
    (∀ skip plan tree, twPlanWithTree s tasks d bl skip = .ok (some plan, tree) →
      (∀ c ∈ plan, twCallKey c ∉ bl) ∧
      ∀ n ∈ tree.nodes, n.kind = .task ∨ n.kind = .goal →
        n.methodIdx ∉ (skip.find? (twCallKey ⟨n.name, n.args⟩)).getD []) ∧
    (∀ plan failStep r newPlan, twReplan s plan tasks d failStep = .ok r → r.newPlan = some newPlan →
      ∀ i : Nat, r.simulate.failStep = i → ∀ c, plan[i]? = some c → ∀ c' ∈ newPlan, twCallKey c' ≠ twCallKey c) := by
  refine ⟨fun plan h c hc => ?_, fun skip plan tree h => ⟨fun c hc => ?_, ?_⟩, ?_⟩
  · simpa [blacklisted] using not_blacklisted_of_solves (tree_of_twPlan h) c hc
  · simpa [blacklisted] using not_blacklisted_of_solves (tree_of_twPlanWithTree h) c hc
  · obtain ⟨memo, hseek, rfl⟩ := twPlanWithTree_eq_ok h
    refine twSeekPlanTree_keeps (nodesAllowed_closed skip) _ _ _ _ ?_ _ memo hseek
    simp [NodesAllowed, TwSolTree.rooted]
  · intro plan failStep r newPlan h hnew i hi c hc c' hc'
    have hplan := (twReplan_eq_ok h).2
    rw [hnew] at hplan
    have hbl := not_blacklisted_of_solves (tree_of_twPlan hplan) c' hc'
    simpa [blacklisted, blacklistStep, hi, hc] using hbl

/-- A letter is sent by mail or by courier. -/
def letterDomain : TwDomain Int where
  actions := (OrderedMap.empty.set "mail" fun s _ => some s).set "courier" fun s _ => some s
  taskMethods := OrderedMap.empty.set "send"
    [fun _ _ => some [.call ⟨"mail", []⟩], fun _ _ => some [.call ⟨"courier", []⟩]]
  actionDurations := .empty

/-- Mail is excluded, once as a command and once as the method that leads to it. -/
theorem exclusions_respected_letter :
    (∃ plan, twPlan .empty [.call ⟨"send", []⟩] letterDomain ["mail"] = .ok (some plan) ∧
      ∀ c ∈ plan, twCallKey c ∉ ["mail"]) ∧
    ∃ plan tree, twPlanWithTree .empty [.call ⟨"send", []⟩] letterDomain [] (OrderedMap.empty.set "send" [0]) =
        .ok (some plan, tree) ∧
      ∀ n ∈ tree.nodes, n.kind = .task ∨ n.kind = .goal →
        n.methodIdx ∉ ((OrderedMap.empty.set "send" [0]).find? (twCallKey ⟨n.name, n.args⟩)).getD [] := by
  have respected := exclusions_respected letterDomain .empty [.call ⟨"send", []⟩]
  have plans : twPlan .empty [.call ⟨"send", []⟩] letterDomain ["mail"] = .ok (some [⟨"courier", []⟩]) := by
    decide +kernel
  have trees : (twPlanWithTree .empty [.call ⟨"send", []⟩] letterDomain [] (OrderedMap.empty.set "send" [0])).map
      Prod.fst = .ok (some [⟨"courier", []⟩]) := by
    decide +kernel
  refine ⟨⟨_, plans, (respected ["mail"]).1 _ plans⟩, ?_⟩
  cases found : twPlanWithTree .empty [.call ⟨"send", []⟩] letterDomain [] (OrderedMap.empty.set "send" [0]) with
  | error e =>
    rw [found] at trees
    cases trees
  | ok result =>
    obtain ⟨plan, tree⟩ := result
    rw [found] at trees
    cases trees
    exact ⟨_, tree, rfl, ((respected []).2.1 _ _ tree found).2⟩

end WeftWarp
