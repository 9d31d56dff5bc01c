import WeftWarp.Theorems.TreeGrowth

/-! # What a search leaves in the tree

A search takes a node away again when it comes back without a plan. What is left are the nodes on the way to the plan,
each for a task that some decompositions have introduced. -/

namespace WeftWarp

variable {F : Type}

/-! ### Where the nodes come from -/

/-- A task on the list with the nodes of the decompositions that introduced it, the outermost first. -/
abbrev Origin (F : Type) := List Nat × TwTask F

/-- The subtasks of a decomposition that has made node `id`. -/
def introduce (origin : List Nat) (id : Nat) (subs : List (TwTask F)) : List (Origin F) :=
  subs.map fun t => (origin ++ [id], t)

section Unfolds
variable [Cxx F]

/-- Working off a list of tasks with their origins: the nodes made, from node `id` on, each with the origin of the task
    that it was made for. A goal that is met or that is looked at again makes no node, and neither does a multigoal. -/
inductive Unfolds (d : TwDomain F) : TwState F → List (Origin F) → Nat → List (Made F × List Nat) → Prop where
  | done (s : TwState F) (id : Nat) : Unfolds d s [] id []
  | act {s s' : TwState F} {c : TwCall F} {origin : List Nat} {rest : List (Origin F)} {id : Nat}
      {steps : List (Made F × List Nat)} {action : TwActionFn F} (ha : d.actions.find? c.name = some action)
      (hs : action s c.args = some s') (later : Unfolds d s' rest (id + 1) steps) :
      Unfolds d s ((origin, .call c) :: rest) id ((.action c, origin) :: steps)
  | task {s : TwState F} {c : TwCall F} {origin : List Nat} {rest : List (Origin F)} {id m : Nat}
      {steps : List (Made F × List Nat)} {methods : List (TwMethodFn F)} {method : TwMethodFn F}
      {subs : List (TwTask F)} (ha : d.actions.find? c.name = none) (hm : d.taskMethods.find? c.name = some methods)
      (hi : methods[m]? = some method) (hsubs : method s c.args = some subs)
      (later : Unfolds d s (introduce origin id subs ++ rest) (id + 1) steps) :
      Unfolds d s ((origin, .call c) :: rest) id ((.method .task c.name c.args m, origin) :: steps)
  | goalMet {s : TwState F} {g : TwGoal F} {origin : List Nat} {rest : List (Origin F)} {id : Nat}
      {steps : List (Made F × List Nat)} (h : g.isSatisfied s = .ok true) (later : Unfolds d s rest id steps) :
      Unfolds d s ((origin, .goal g) :: rest) id steps
  | goalVia {s : TwState F} {g : TwGoal F} {origin : List Nat} {rest : List (Origin F)} {id m : Nat}
      {steps : List (Made F × List Nat)} {b : TwGoalBinding F} {unmet : List (TwGoalBinding F)}
      {methods : List (TwMethodFn F)} {method : TwMethodFn F} {subs : List (TwTask F)}
      (hu : g.unsatisfied s = .ok (b :: unmet)) (hm : d.taskMethods.find? b.var = some methods)
      (hi : methods[m]? = some method) (hsubs : method s [.string b.key, b.desired] = some subs)
      (later : Unfolds d s (introduce origin id subs ++ (origin, .goal g) :: rest) (id + 1) steps) :
      Unfolds d s ((origin, .goal g) :: rest) id ((.method .goal b.var [.string b.key, b.desired] m, origin) :: steps)
  | multiMet {s : TwState F} {mg : TwMultiGoal F} {origin : List Nat} {rest : List (Origin F)} {id : Nat}
      {steps : List (Made F × List Nat)} (h : mg.isSatisfied s = .ok true) (later : Unfolds d s rest id steps) :
      Unfolds d s ((origin, .multiGoal mg) :: rest) id steps
  | multiVia {s : TwState F} {mg : TwMultiGoal F} {origin : List Nat} {rest : List (Origin F)} {id : Nat}
      {steps : List (Made F × List Nat)} {b : TwGoalBinding F} {unmet : List (TwGoalBinding F)}
      (hu : mg.unsatisfied s = .ok unmet) (hb : b ∈ unmet)
      (later : Unfolds d s ((origin, .goal ⟨[b]⟩) :: (origin, .multiGoal mg) :: rest) id steps) :
      Unfolds d s ((origin, .multiGoal mg) :: rest) id steps

/-- The decompositions are those of tasks and goals. -/
theorem Unfolds.proper {d : TwDomain F} {s : TwState F} {origins : List (Origin F)} {id : Nat}
    {steps : List (Made F × List Nat)} (unfolds : Unfolds d s origins id steps) :
    ∀ made ∈ steps.map Prod.fst, made.Proper := by
  induction unfolds with
  | done => exact fun _ mem => nomatch mem
  | act _ _ _ ih => exact List.forall_mem_cons.mpr ⟨trivial, ih⟩
  | task _ _ _ _ _ ih => exact List.forall_mem_cons.mpr ⟨.inl rfl, ih⟩
  | goalMet _ _ ih => exact ih
  | goalVia _ _ _ _ _ ih => exact List.forall_mem_cons.mpr ⟨.inr rfl, ih⟩
  | multiMet _ _ ih => exact ih
  | multiVia _ _ _ ih => exact ih

/-- Whatever the origins of the tasks are, the list can be worked off with these nodes. -/
def Unfolded (d : TwDomain F) (s : TwState F) (tasks : List (TwTask F)) (id : Nat) (made : List (Made F)) : Prop :=
  ∀ origins : List (Origin F), origins.map Prod.snd = tasks →
    ∃ steps, steps.map Prod.fst = made ∧ Unfolds d s origins id steps

variable {d : TwDomain F} {s : TwState F} {rest : List (TwTask F)} {id : Nat} {made : List (Made F)}

theorem Unfolded.proper {tasks : List (TwTask F)} (unfolded : Unfolded d s tasks id made) : ∀ x ∈ made, x.Proper := by
  obtain ⟨steps, rfl, unfolds⟩ := unfolded (tasks.map ([], ·)) (by rw [List.map_map]; exact List.map_id tasks)
  exact unfolds.proper

theorem Unfolded.nil (d : TwDomain F) (s : TwState F) (id : Nat) : Unfolded d s [] id [] := by
  intro origins tasks
  rw [List.map_eq_nil_iff.mp tasks]
  exact ⟨[], rfl, .done s id⟩

/-- From the rest of the list to the list, where the head has the origin `origin`. -/
theorem Unfolded.cons {t : TwTask F} {new : List (Made F)}
    (head : ∀ origin (origins : List (Origin F)), origins.map Prod.snd = rest →
      ∃ steps, steps.map Prod.fst = new ∧ Unfolds d s ((origin, t) :: origins) id steps) :
    Unfolded d s (t :: rest) id new := by
  intro origins tasks
  cases origins with
  | nil => cases tasks
  | cons o origins =>
    obtain ⟨origin, t'⟩ := o
    obtain ⟨rfl, rest⟩ := List.cons.inj tasks
    exact head origin origins rest

variable {c : TwCall F} {method : TwMethodFn F} {methods : List (TwMethodFn F)} {subs : List (TwTask F)}
  {g : TwGoal F} {b : TwGoalBinding F} {unmet : List (TwGoalBinding F)} {mg : TwMultiGoal F}

theorem Unfolded.act {s' : TwState F} {action : TwActionFn F} (ha : d.actions.find? c.name = some action)
    (hs : action s c.args = some s') (later : Unfolded d s' rest (id + 1) made) :
    Unfolded d s (.call c :: rest) id (.action c :: made) := by
  refine .cons fun origin origins tasks => ?_
  obtain ⟨steps, rfl, unfolds⟩ := later origins tasks
  exact ⟨(.action c, origin) :: steps, rfl, .act ha hs unfolds⟩

omit [Cxx F] in
theorem map_snd_introduce (origin : List Nat) (id : Nat) (subs : List (TwTask F)) (origins : List (Origin F)) :
    (introduce origin id subs ++ origins).map Prod.snd = subs ++ origins.map Prod.snd := by
  rw [introduce, List.map_append, List.map_map]
  exact congrArg (· ++ _) (List.map_id subs)

variable {m : Nat}

theorem Unfolded.task (ha : d.actions.find? c.name = none) (hm : d.taskMethods.find? c.name = some methods)
    (hi : methods[m]? = some method) (hsubs : method s c.args = some subs)
    (later : Unfolded d s (subs ++ rest) (id + 1) made) :
    Unfolded d s (.call c :: rest) id (.method .task c.name c.args m :: made) := by
  refine .cons fun origin origins tasks => ?_
  obtain ⟨steps, rfl, unfolds⟩ := later (introduce origin id subs ++ origins) (by rw [map_snd_introduce, tasks])
  exact ⟨(_, origin) :: steps, rfl, .task ha hm hi hsubs unfolds⟩

theorem Unfolded.goalMet (h : g.isSatisfied s = .ok true) (later : Unfolded d s rest id made) :
    Unfolded d s (.goal g :: rest) id made := by
  refine .cons fun origin origins tasks => ?_
  obtain ⟨steps, rfl, unfolds⟩ := later origins tasks
  exact ⟨steps, rfl, .goalMet h unfolds⟩

theorem Unfolded.goalVia (hu : g.unsatisfied s = .ok (b :: unmet)) (hm : d.taskMethods.find? b.var = some methods)
    (hi : methods[m]? = some method) (hsubs : method s [.string b.key, b.desired] = some subs)
    (later : Unfolded d s (subs ++ .goal g :: rest) (id + 1) made) :
    Unfolded d s (.goal g :: rest) id (.method .goal b.var [.string b.key, b.desired] m :: made) := by
  refine .cons fun origin origins tasks => ?_
  obtain ⟨steps, rfl, unfolds⟩ := later (introduce origin id subs ++ (origin, .goal g) :: origins)
    (by rw [map_snd_introduce, List.map_cons, tasks])
  exact ⟨(_, origin) :: steps, rfl, .goalVia hu hm hi hsubs unfolds⟩

theorem Unfolded.multiMet (h : mg.isSatisfied s = .ok true) (later : Unfolded d s rest id made) :
    Unfolded d s (.multiGoal mg :: rest) id made := by
  refine .cons fun origin origins tasks => ?_
  obtain ⟨steps, rfl, unfolds⟩ := later origins tasks
  exact ⟨steps, rfl, .multiMet h unfolds⟩

theorem Unfolded.multiVia (hu : mg.unsatisfied s = .ok unmet) (hb : b ∈ unmet)
    (later : Unfolded d s (.goal ⟨[b]⟩ :: .multiGoal mg :: rest) id made) :
    Unfolded d s (.multiGoal mg :: rest) id made := by
  refine .cons fun origin origins tasks => ?_
  obtain ⟨steps, rfl, unfolds⟩ := later ((origin, .goal ⟨[b]⟩) :: (origin, .multiGoal mg) :: origins) (by simp [tasks])
  exact ⟨steps, rfl, .multiVia hu hb unfolds⟩

end Unfolds

/-! ### The search -/

/-- A search from the tree `t` comes back with `t` where it has no plan, and with `t` and the nodes of its plan. -/
def Grows (Q : List (Made F) → Prop) (t : TwSolTree F) (parent : Int) : SeekTree F → Prop
  | .error _ => True
  | .ok (none, memo) => memo.tree = t
  | .ok (some plan, memo) => ∃ made, memo.tree = t.grow parent made ∧ plan = calls made ∧ Q made

section Search
variable {Q : List (Made F) → Prop} {t : TwSolTree F} {parent : Int}
variable {r : SeekTree F} {args : List (TwValue F)} {extend : List (TwTask F) → List (TwTask F)}

theorem Grows.orMark (h : Grows Q t parent r) (key : TwMemoKey) : Grows Q t parent (r.orMark key) := by
  match r with
  | .error e => exact h
  | .ok (some plan, memo) => exact h
  | .ok (none, memo) => exact (tree_markFail memo key).trans h

theorem Grows.imp {Q' : List (Made F) → Prop} (h : Grows Q t parent r) (weaker : ∀ made, Q made → Q' made) :
    Grows Q' t parent r := by
  match r with
  | .error e => exact h
  | .ok (none, memo) => exact h
  | .ok (some plan, memo) =>
    obtain ⟨made, tree, plan, holds⟩ := h
    exact ⟨made, tree, plan, weaker made holds⟩

variable [Cxx F] {d : TwDomain F} {bl : TwBlacklist} {skip : TwMethodSkip} {s : TwState F}
variable {memo : TwTreeMemo F} {seek : List (TwTask F) → Int → TwTreeMemo F → SeekTree F} {kind : TwSolKind}
  {name : String}

theorem tryTreeMethods_grows
    (hseek : ∀ tasks parent memo, memo.tree.Sane →
      Grows (Unfolded d s tasks memo.tree.nodes.length) memo.tree parent (seek tasks parent memo)) (sane : t.Sane)
    {methods : List (TwMethodFn F)} {m : Nat}
    (chosen : ∀ i method subs made, methods[i]? = some method → method s args = some subs →
      Unfolded d s (extend subs) (t.nodes.length + 1) made → Q (.method kind name args (m + i) :: made))
    {seen : List UInt64} (same : memo.tree = t) :
    Grows Q t parent (tryTreeMethods d bl skip s parent seek kind name args extend m methods seen memo) := by
  induction methods generalizing m seen memo with
  | nil => exact same
  | cons method methods ih =>
    have next {seen : List UInt64} {memo : TwTreeMemo F} (same : memo.tree = t) :
        Grows Q t parent (tryTreeMethods d bl skip s parent seek kind name args extend (m + 1) methods seen memo) := by
      refine ih (fun i method subs made found => ?_) same
      rw [Nat.add_assoc, Nat.add_comm 1 i]
      exact chosen (i + 1) method subs made found
    have undone {memo' : TwTreeMemo F} (grown : memo'.tree = t.add parent (.method kind name args m)) :
        (memo'.restore t.nodes.length).tree = t := by
      rw [TwTreeMemo.restore, grown]
      exact TwSolTree.restore_add sane parent _
    subst same
    rw [tryTreeMethods]
    split
    · exact next rfl
    · cases hsubs : method s args with
      | none => exact next rfl
      | some subs =>
        dsimp only
        split
        · exact next (undone rfl)
        · cases twPrefixPlausible d bl s 2 (extend subs) with
          | error e => trivial
          | ok passes =>
            cases passes with
            | false => exact next (undone rfl)
            | true =>
              have grown : (memo.addMethod kind parent name args m).2.tree =
                  memo.tree.add parent (.method kind name args m) := rfl
              have below := hseek (extend subs) (memo.addMethod kind parent name args m).1 _ (grown ▸ sane.add parent _)
              rw [grown, TwSolTree.length_add] at below
              dsimp only
              generalize seek (extend subs) _ _ = r at below ⊢
              match r with
              | .error e => trivial
              | .ok (none, memo') => exact next (undone below)
              | .ok (some plan, memo') =>
                obtain ⟨made, tree, plan, unfolded⟩ := below
                exact ⟨.method kind name args m :: made, tree, plan, chosen 0 method subs made rfl hsubs unfolded⟩

theorem seekTreeMethods_grows
    (hseek : ∀ tasks parent memo, memo.tree.Sane →
      Grows (Unfolded d s tasks memo.tree.nodes.length) memo.tree parent (seek tasks parent memo))
    (sane : memo.tree.Sane)
    (chosen : ∀ methods i method subs made, d.taskMethods.find? name = some methods → methods[i]? = some method →
      method s args = some subs → Unfolded d s (extend subs) (memo.tree.nodes.length + 1) made →
      Q (.method kind name args i :: made)) :
    Grows Q memo.tree parent (seekTreeMethods d bl skip s parent seek kind name args extend memo) := by
  rw [seekTreeMethods]
  cases hm : d.taskMethods.find? name with
  | none => exact rfl
  | some methods =>
    refine tryTreeMethods_grows hseek sane (fun i method subs made found hsubs unfolded => ?_) rfl
    rw [Nat.zero_add]
    exact chosen methods i method subs made hm found hsubs unfolded

theorem tryTreeBindings_grows
    (hseek : ∀ tasks parent memo, memo.tree.Sane →
      Grows (Unfolded d s tasks memo.tree.nodes.length) memo.tree parent (seek tasks parent memo)) (sane : t.Sane)
    {mg : TwMultiGoal F} {rest : List (TwTask F)} {unmet : List (TwGoalBinding F)}
    (chosen : ∀ b ∈ unmet, ∀ made,
      Unfolded d s (.goal ⟨[b]⟩ :: .multiGoal mg :: rest) t.nodes.length made → Q made) (same : memo.tree = t) :
    Grows Q t parent (tryTreeBindings parent seek mg rest unmet memo) := by
  induction unmet generalizing memo with
  | nil => exact same
  | cons b unmet ih =>
    subst same
    rw [tryTreeBindings]
    have below := hseek (.goal ⟨[b]⟩ :: .multiGoal mg :: rest) parent memo sane
    generalize seek _ parent memo = r at below ⊢
    match r with
    | .error e => trivial
    | .ok (none, memo') => exact ih (fun b mem => chosen b (List.mem_cons_of_mem _ mem)) below
    | .ok (some plan, memo') => exact below.imp (chosen b List.mem_cons_self)

theorem treeStep_grows {seek : TwState F → List (TwTask F) → Int → TwTreeMemo F → SeekTree F}
    (hseek : ∀ s tasks parent memo, memo.tree.Sane →
      Grows (Unfolded d s tasks memo.tree.nodes.length) memo.tree parent (seek s tasks parent memo))
    (s : TwState F) (tasks : List (TwTask F)) (parent : Int) (memo : TwTreeMemo F) (sane : memo.tree.Sane) :
    Grows (Unfolded d s tasks memo.tree.nodes.length) memo.tree parent
      (treeStep d bl skip seek s tasks parent memo) := by
  -- the tree with the node of an action
  have below {c : TwCall F} (s' : TwState F) (rest : List (TwTask F)) :
      Grows (Unfolded d s' rest (memo.tree.nodes.length + 1)) (memo.tree.add parent (.action c)) parent
        (seek s' rest parent (memo.addAction parent c)) := by
    have grown : (memo.addAction parent c).tree = memo.tree.add parent (.action c) := rfl
    have found := hseek s' rest parent (memo.addAction parent c) (grown ▸ sane.add parent _)
    rwa [grown, TwSolTree.length_add] at found
  have level := treeStep_level d bl skip seek s tasks parent memo
  generalize treeStep d bl skip seek s tasks parent memo = r at level ⊢
  cases level with
  | done => exact ⟨[], rfl, rfl, .nil d s _⟩
  | thrown => trivial
  | failed => exact rfl
  | marked key => exact tree_markFail memo key
  | goalMet met => exact (hseek s _ parent memo sane).imp fun made => .goalMet met
  | goalVia key unmet =>
    refine (seekTreeMethods_grows (hseek s) sane ?_).orMark key
    exact fun methods i method subs made hm hi hsubs unfolded => .goalVia unmet hm hi hsubs unfolded
  | multiMet met => exact (hseek s _ parent memo sane).imp fun made => .multiMet met
  | multiVia key unmet =>
    refine (tryTreeBindings_grows (hseek s) sane (fun b mem made unfolded => ?_) rfl).orMark key
    exact .multiVia unmet mem unfolded
  | task key ha =>
    refine (seekTreeMethods_grows (hseek s) sane ?_).orMark key
    exact fun methods i method subs made hm hi hsubs unfolded => .task ha hm hi hsubs unfolded
  | @act c rest _ s' _ _ ha hs found =>
    have plan := @below c s' rest
    rw [found] at plan
    obtain ⟨made, tree, rfl, unfolded⟩ := plan
    exact ⟨.action c :: made, tree, rfl, .act ha hs unfolded⟩
  | @undo c rest _ s' _ key _ _ found =>
    have none := @below c s' rest
    rw [found] at none
    refine (tree_markFail _ key).trans ?_
    rw [TwTreeMemo.restore, none]
    exact TwSolTree.restore_add sane parent _

theorem twSeekPlanTree_grows (d : TwDomain F) (bl : TwBlacklist) (skip : TwMethodSkip) (fuel : Nat) (s : TwState F)
    (tasks : List (TwTask F)) (parent : Int) (memo : TwTreeMemo F) (sane : memo.tree.Sane) :
    Grows (Unfolded d s tasks memo.tree.nodes.length) memo.tree parent
      (twSeekPlanTree d bl skip fuel s tasks parent memo) := by
  induction fuel generalizing s tasks parent memo with
  | zero => exact rfl
  | succ fuel ih => exact treeStep_grows ih s tasks parent memo sane

end Search
end WeftWarp
