import WeftWarp.Theorems.IncrementalReplan
import WeftWarp.Theorems.TreeBookkeeping

/-! # The hierarchy in the solution tree

The parent that `tw_seek_plan_tree` hands down is the node of the last decomposition, worked off or not. Every later
node is a descendant of every earlier task or goal. -/

namespace WeftWarp

open Relation (TransGen ReflTransGen)

variable {F : Type}

namespace TwSolTree

/-- Node `j` is the parent of node `i`. -/
def ParentOf (t : TwSolTree F) (j i : Nat) : Prop := ∃ n, t.nodes[i]? = some n ∧ n.parent = j

/-- The node of a task or a goal. -/
def IsChoice (t : TwSolTree F) (j : Nat) : Prop := ∃ n, t.nodes[j]? = some n ∧ (n.kind = .task ∨ n.kind = .goal)

/-- Node `j` is an ancestor of node `i`, made for a task or a goal. -/
def ChoiceAncestor (t : TwSolTree F) (j i : Nat) : Prop := TransGen t.ParentOf j i ∧ t.IsChoice j

end TwSolTree

/-- The task and goal ancestors of every action are the decompositions that introduced it. Step `k` has made node
    `first + k`. -/
def TrueHierarchy (t : TwSolTree F) (first : Nat) (steps : List (Made F × List Nat)) : Prop :=
  ∀ (k : Nat) c origin, steps[k]? = some (.action c, origin) → ∀ j, t.ChoiceAncestor j (first + k) ↔ j ∈ origin

/-- Node `j` is one of a decomposition made before step `k`. -/
def MadeBefore (first : Nat) (steps : List (Made F × List Nat)) (k j : Nat) : Prop :=
  ∃ (i : Nat) (made : Made F) (o : List Nat),
    i < k ∧ j = first + i ∧ steps[i]? = some (made, o) ∧ made.isAction = false

/-- Where an action is applied, all decompositions made before are among those that introduced it: none of them has
    been worked off. -/
def Nested (first : Nat) (steps : List (Made F × List Nat)) : Prop :=
  ∀ (k : Nat) c origin, steps[k]? = some (.action c, origin) → ∀ j, MadeBefore first steps k j → j ∈ origin

/-! ### Origins -/

section Origins
variable {first k j : Nat} {steps : List (Made F × List Nat)}

theorem MadeBefore.cons (before : MadeBefore (first + 1) steps k j) (step : Made F × List Nat) :
    MadeBefore first (step :: steps) (k + 1) j := by
  obtain ⟨i, made, o, earlier, rfl, found, decomposes⟩ := before
  exact ⟨i + 1, made, o, Nat.succ_lt_succ earlier, by omega, found, decomposes⟩

theorem MadeBefore.head {made : Made F} (decomposes : made.isAction = false) (o : List Nat) :
    MadeBefore first ((made, o) :: steps) (k + 1) first :=
  ⟨0, made, o, Nat.succ_pos k, rfl, rfl, decomposes⟩

theorem mem_origin_introduce {own : List Nat} {id : Nat} {subs : List (TwTask F)} {rest : List (Origin F)}
    {x : Origin F} (mem : x ∈ introduce own id subs ++ rest) (origin : j ∈ x.1) :
    j = id ∨ j ∈ own ∨ ∃ y ∈ rest, j ∈ y.1 := by
  rcases List.mem_append.mp mem with mem | mem
  · obtain ⟨t, -, rfl⟩ := List.mem_map.mp mem
    rcases List.mem_append.mp origin with origin | origin
    · exact .inr (.inl origin)
    · exact .inl (List.mem_singleton.mp origin)
  · exact .inr (.inr ⟨x, mem, origin⟩)

/-- A step that a decomposition opens the list with, and the steps behind it on the list with the subtasks. -/
theorem origin_cons {origins rest : List (Origin F)} {own origin : List Nat} {t : TwTask F} {subs : List (TwTask F)}
    {made other : Made F} (decomposes : made.isAction = false) (head : (own, t) ∈ origins)
    (tail : ∀ y ∈ rest, y ∈ origins)
    (later : ∀ {k : Nat}, steps[k]? = some (other, origin) →
      (∃ x ∈ introduce own first subs ++ rest, j ∈ x.1) ∨ MadeBefore (first + 1) steps k j)
    (step : ((made, own) :: steps)[k]? = some (other, origin)) (mem : j ∈ origin) :
    (∃ x ∈ origins, j ∈ x.1) ∨ MadeBefore first ((made, own) :: steps) k j := by
  cases k with
  | zero =>
    cases step
    exact .inl ⟨_, head, mem⟩
  | succ k =>
    rcases later step with ⟨x, inList, mem⟩ | before
    · rcases mem_origin_introduce inList mem with rfl | mem | ⟨y, inRest, mem⟩
      · exact .inr (.head decomposes own)
      · exact .inl ⟨_, head, mem⟩
      · exact .inl ⟨y, tail y inRest, mem⟩
    · exact .inr (before.cons _)

/-- What introduced a task is what introduced the tasks at the start, or decompositions made before. -/
theorem Unfolds.origin [Cxx F] {d : TwDomain F} {s : TwState F} {origins : List (Origin F)}
    (unfolds : Unfolds d s origins first steps) {made : Made F} {origin : List Nat}
    (step : steps[k]? = some (made, origin)) (mem : j ∈ origin) :
    (∃ x ∈ origins, j ∈ x.1) ∨ MadeBefore first steps k j := by
  induction unfolds generalizing k with
  | done => cases step
  | @act s s' c own rest id steps action ha hs later ih =>
    cases k with
    | zero =>
      cases step
      exact .inl ⟨_, List.mem_cons_self, mem⟩
    | succ k =>
      rcases ih step with ⟨x, inRest, mem⟩ | before
      · exact .inl ⟨x, List.mem_cons_of_mem _ inRest, mem⟩
      · exact .inr (before.cons _)
  | task _ _ _ _ _ ih => exact origin_cons rfl List.mem_cons_self (fun _ => List.mem_cons_of_mem _) ih step mem
  | goalMet h later ih =>
    rcases ih step with ⟨x, inRest, mem⟩ | before
    · exact .inl ⟨x, List.mem_cons_of_mem _ inRest, mem⟩
    · exact .inr before
  | goalVia _ _ _ _ _ ih => exact origin_cons rfl List.mem_cons_self (fun _ => id) ih step mem
  | multiMet h later ih =>
    rcases ih step with ⟨x, inRest, mem⟩ | before
    · exact .inl ⟨x, List.mem_cons_of_mem _ inRest, mem⟩
    · exact .inr before
  | @multiVia s mg own rest id steps b unmet hu hb later ih =>
    rcases ih step with ⟨x, inList, mem⟩ | before
    · rcases List.mem_cons.mp inList with rfl | inList
      · exact .inl ⟨_, List.mem_cons_self, mem⟩
      · exact .inl ⟨x, inList, mem⟩
    · exact .inr before

end Origins

/-! ### Ancestors -/

namespace TwSolTree

theorem nextParent_concat (id : Nat) (parent : Int) (front : List (Made F)) (made : Made F) :
    nextParent id parent (front ++ [made]) = made.next (id + front.length) (nextParent id parent front) := by
  induction front generalizing id parent with
  | nil => rfl
  | cons made' front ih =>
    rw [List.cons_append, nextParent, ih, nextParent, List.length_cons, Nat.add_assoc, Nat.add_comm 1]

section Ancestors
variable {all : List (Made F)}

theorem node_grow_rooted {k : Nat} {made : Made F} (found : all[k]? = some made) :
    ∃ n, (rooted.grow 0 all).nodes[1 + k]? = some n ∧ n.parent = nextParent 1 0 (all.take k) ∧
      ∃ parent steps, n.kind = (made.node parent steps).kind := by
  obtain ⟨inside, rfl⟩ := List.getElem?_eq_some_iff.mp found
  have split : all.take k ++ all[k] :: all.drop (k + 1) = all := by
    rw [← List.drop_eq_getElem_cons inside, List.take_append_drop]
  have whole := grow_append rooted 0 (all.take k) (all[k] :: all.drop (k + 1))
  have node := getElem?_grow_self (rooted.grow 0 (all.take k)) (nextParent 1 0 (all.take k)) all[k] (all.drop (k + 1))
  have length : (rooted.grow 0 (all.take k)).nodes.length = 1 + k := by
    rw [length_grow, List.length_take, Nat.min_eq_left inside.le]
    rfl
  rw [split] at whole
  rw [length] at node
  rw [whole]
  exact ⟨_, node, node_parent _, _, _, rfl⟩

theorem parentOf_grow_rooted {k : Nat} (inside : k < all.length) {q : Nat} :
    (rooted.grow 0 all).ParentOf q (1 + k) ↔ nextParent 1 0 (all.take k) = q := by
  obtain ⟨n, found, parent, -⟩ := node_grow_rooted (List.getElem?_eq_getElem inside)
  constructor
  · rintro ⟨n', found', parent'⟩
    obtain rfl := Option.some.inj (found.symm.trans found')
    rw [← parent, parent']
  · intro same
    exact ⟨n, found, parent.trans same⟩

theorem isChoice_grow_rooted {k : Nat} {made : Made F} (found : all[k]? = some made) (proper : made.Proper)
    (decomposes : made.isAction = false) : (rooted.grow 0 all).IsChoice (1 + k) := by
  obtain ⟨n, foundNode, -, parent, steps, kind⟩ := node_grow_rooted found
  refine ⟨n, foundNode, ?_⟩
  rw [kind]
  cases made with
  | action c => cases decomposes
  | method kind name args m => exact proper

theorem not_isChoice_above_root {j : Nat} (above : ReflTransGen (rooted.grow 0 all).ParentOf j 0) :
    ¬(rooted.grow 0 all).IsChoice j := by
  rintro ⟨n, found, choice⟩
  have root := getElem?_grow (t := rooted) Nat.zero_lt_one 0 all
  rcases above.cases_tail with rfl | ⟨c, -, n', found', parent⟩
  · obtain rfl := Option.some.inj (root.symm.trans found)
    rcases choice with h | h <;> cases h
  · obtain rfl := Option.some.inj (root.symm.trans found')
    cases parent

/-- The decompositions made so far are the tasks and goals at and above the parent of the node made next. -/
theorem choices_above (proper : ∀ x ∈ all, x.Proper) {k : Nat} (inside : k ≤ all.length) (j : Nat) :
    (∃ q : Nat, nextParent 1 0 (all.take k) = q ∧ ReflTransGen (rooted.grow 0 all).ParentOf j q ∧
      (rooted.grow 0 all).IsChoice j) ↔
      ∃ (i : Nat) (made : Made F), i < k ∧ j = 1 + i ∧ all[i]? = some made ∧ made.isAction = false := by
  induction k with
  | zero =>
    refine iff_of_false ?_ (fun ⟨i, _, before, _⟩ => Nat.not_lt_zero i before)
    rintro ⟨q, root, above, choice⟩
    obtain rfl : q = 0 := (Int.ofNat.inj root).symm
    exact not_isChoice_above_root above choice
  | succ k ih =>
    have ih := ih (Nat.le_of_succ_le inside)
    have found : all[k]? = some all[k] := List.getElem?_eq_getElem inside
    have parent : nextParent 1 0 (all.take (k + 1)) = all[k].next (1 + k) (nextParent 1 0 (all.take k)) := by
      rw [List.take_succ_eq_append_getElem inside, nextParent_concat, List.length_take,
        Nat.min_eq_left (Nat.le_of_succ_le inside)]
    have properMade : all[k].Proper := proper _ (List.getElem_mem inside)
    rw [parent]
    generalize all[k] = made at found properMade
    cases made with
    | action c =>
      -- The parent stays, and step `k` is no decomposition.
      rw [Made.next, ih]
      constructor
      · rintro ⟨i, made, before, rest⟩
        exact ⟨i, made, Nat.lt_succ_of_lt before, rest⟩
      · rintro ⟨i, made, before, rfl, found', decomposes⟩
        rcases Nat.lt_succ_iff_lt_or_eq.mp before with before | rfl
        · exact ⟨i, made, before, rfl, found', decomposes⟩
        · obtain rfl := Option.some.inj (found.symm.trans found')
          cases decomposes
    | method kind name args m =>
      rw [Made.next]
      constructor
      · rintro ⟨q, same, above, choice⟩
        obtain rfl : q = 1 + k := (Int.ofNat.inj same).symm
        rcases above.cases_tail with rfl | ⟨q, above, hangs⟩
        · exact ⟨k, _, Nat.lt_succ_self k, rfl, found, rfl⟩
        · obtain ⟨i, made, before, rest⟩ := ih.mp ⟨q, (parentOf_grow_rooted inside).mp hangs, above, choice⟩
          exact ⟨i, made, Nat.lt_succ_of_lt before, rest⟩
      · rintro ⟨i, made, before, rfl, found', decomposes⟩
        rcases Nat.lt_succ_iff_lt_or_eq.mp before with before | rfl
        · obtain ⟨q, hangs, above, choice⟩ := ih.mpr ⟨i, made, before, rfl, found', decomposes⟩
          exact ⟨1 + k, rfl, above.tail ((parentOf_grow_rooted inside).mpr hangs), choice⟩
        · exact ⟨1 + i, rfl, .refl, isChoice_grow_rooted found properMade rfl⟩

/-- The task and goal ancestors of a node are the decompositions made before it. -/
theorem choiceAncestor_iff (proper : ∀ x ∈ all, x.Proper) {k : Nat} (inside : k < all.length) (j : Nat) :
    (rooted.grow 0 all).ChoiceAncestor j (1 + k) ↔
      ∃ (i : Nat) (made : Made F), i < k ∧ j = 1 + i ∧ all[i]? = some made ∧ made.isAction = false := by
  rw [← choices_above proper inside.le j, ChoiceAncestor, Relation.TransGen.tail'_iff]
  constructor
  · rintro ⟨⟨q, above, hangs⟩, choice⟩
    exact ⟨q, (parentOf_grow_rooted inside).mp hangs, above, choice⟩
  · rintro ⟨q, hangs, above, choice⟩
    exact ⟨⟨q, above, (parentOf_grow_rooted inside).mpr hangs⟩, choice⟩

end Ancestors
end TwSolTree

/-! ### Provenance -/

theorem choiceAncestor_iff_madeBefore {steps : List (Made F × List Nat)} (proper : ∀ x ∈ steps.map Prod.fst, x.Proper)
    {k : Nat} (inside : k < steps.length) (j : Nat) :
    (TwSolTree.rooted.grow 0 (steps.map Prod.fst)).ChoiceAncestor j (1 + k) ↔ MadeBefore 1 steps k j := by
  rw [TwSolTree.choiceAncestor_iff proper (by rwa [List.length_map]) j]
  constructor
  · rintro ⟨i, made, before, same, found, decomposes⟩
    rw [List.getElem?_map] at found
    obtain ⟨⟨made', o⟩, place, rfl⟩ := Option.map_eq_some_iff.mp found
    exact ⟨i, made', o, before, same, place, decomposes⟩
  · rintro ⟨i, made, o, before, same, found, decomposes⟩
    refine ⟨i, made, before, same, ?_, decomposes⟩
    rw [List.getElem?_map, found]
    rfl

variable [Cxx F]

theorem trueHierarchy_iff_nested {d : TwDomain F} {s : TwState F} {tasks : List (TwTask F)}
    {steps : List (Made F × List Nat)} (unfolds : Unfolds d s (tasks.map ([], ·)) 1 steps) :
    TrueHierarchy (TwSolTree.rooted.grow 0 (steps.map Prod.fst)) 1 steps ↔ Nested 1 steps := by
  constructor
  · intro hierarchy k c origin step j before
    have inside := (List.getElem?_eq_some_iff.mp step).1
    exact (hierarchy k c origin step j).mp ((choiceAncestor_iff_madeBefore unfolds.proper inside j).mpr before)
  · intro nested k c origin step j
    have inside := (List.getElem?_eq_some_iff.mp step).1
    rw [choiceAncestor_iff_madeBefore unfolds.proper inside j]
    refine ⟨nested k c origin step j, fun mem => ?_⟩
    rcases unfolds.origin step mem with ⟨x, top, mem⟩ | before
    · obtain ⟨t, -, rfl⟩ := List.mem_map.mp top
      cases mem
    · exact before

/-- The tree of a plan holds the nodes of a derivation of the task list, and its hierarchy is the true one exactly when
    every action is applied before any decomposition made so far has been worked off. -/
theorem twPlanWithTree_hierarchy_iff (d : TwDomain F) (s : TwState F) (tasks : List (TwTask F)) (bl : TwBlacklist)
    (skip : TwMethodSkip) {plan : List (TwCall F)} {tree : TwSolTree F}
    (planned : twPlanWithTree s tasks d bl skip = .ok (some plan, tree)) :
    (∃ steps, Unfolds d s (tasks.map ([], ·)) 1 steps ∧ plan = calls (steps.map Prod.fst) ∧
      tree = TwSolTree.rooted.grow 0 (steps.map Prod.fst)) ∧
    ∀ steps, Unfolds d s (tasks.map ([], ·)) 1 steps → tree = TwSolTree.rooted.grow 0 (steps.map Prod.fst) →
      (TrueHierarchy tree 1 steps ↔ Nested 1 steps) := by
  constructor
  · obtain ⟨memo, found, rfl⟩ := twPlanWithTree_eq_ok planned
    have grows := twSeekPlanTree_grows d bl skip twMaxDepth s tasks 0 ⟨.rooted, some []⟩ TwSolTree.sane_rooted
    rw [found] at grows
    obtain ⟨made, tree, rfl, unfolded⟩ := grows
    obtain ⟨steps, rfl, unfolds⟩ := unfolded (tasks.map ([], ·)) (by rw [List.map_map]; exact List.map_id tasks)
    exact ⟨steps, unfolds, rfl, tree⟩
  · rintro steps unfolds rfl
    exact trueHierarchy_iff_nested unfolds

/-- Packing a parcel, then sending it. -/
def parcelSteps : List (Made Int × List Nat) :=
  [(.method .task "pack" [] 0, []), (.action ⟨"box", []⟩, [1]), (.method .task "send" [] 0, []),
    (.action ⟨"mail", []⟩, [3])]

/-- The parcel is mailed for the second task, and yet the node of the first task is an ancestor of the mailing. -/
theorem twPlanWithTree_hierarchy_parcel :
    twPlanWithTree .empty [.call ⟨"pack", []⟩, .call ⟨"send", []⟩] parcelDomain [] .empty =
        .ok (some [⟨"box", []⟩, ⟨"mail", []⟩], parcelTree) ∧
      Unfolds parcelDomain .empty [([], .call ⟨"pack", []⟩), ([], .call ⟨"send", []⟩)] 1 parcelSteps ∧
      parcelTree = TwSolTree.rooted.grow 0 (parcelSteps.map Prod.fst) ∧
      parcelTree.ChoiceAncestor 1 4 ∧ ¬TrueHierarchy parcelTree 1 parcelSteps := by
  have ancestor : parcelTree.ChoiceAncestor 1 4 :=
    ⟨.tail (.single ⟨_, rfl, rfl⟩) ⟨_, rfl, rfl⟩, _, rfl, .inl rfl⟩
  refine ⟨by decide +kernel, ?_, by decide +kernel, ancestor, fun hierarchy => ?_⟩
  · exact .task rfl rfl rfl rfl (.act rfl rfl (.task rfl rfl rfl rfl (.act rfl rfl (.done _ _))))
  · have introduced := (hierarchy 3 ⟨"mail", []⟩ [3] rfl 1).mp ancestor
    simp at introduced

/-- The tree for `send`. -/
def sendTree : TwSolTree Int where
  nodes := [⟨.root, -1, [1], "", [], -1, -1, -1⟩, ⟨.task, 0, [2], "send", [], 0, -1, 0⟩,
    ⟨.action, 1, [], "mail", [], -1, 0, -1⟩]
  actionNodes := [2]

theorem twPlanWithTree_hierarchy_send :
    TrueHierarchy sendTree 1 [(.method .task "send" [] 0, []), (.action ⟨"mail", []⟩, [1])] := by
  have planned : twPlanWithTree .empty [.call ⟨"send", []⟩] parcelDomain [] .empty = .ok (some [⟨"mail", []⟩], sendTree) := by
    decide +kernel
  obtain ⟨-, hierarchy⟩ := twPlanWithTree_hierarchy_iff parcelDomain .empty [.call ⟨"send", []⟩] [] .empty planned
  refine (hierarchy _ (.task rfl rfl rfl rfl (.act rfl rfl (.done _ _))) (by decide +kernel)).mpr ?_
  rintro k c origin step j ⟨i, made, o, before, rfl, -, -⟩
  match k, step with
  | 1, rfl =>
    obtain rfl : i = 0 := by omega
    exact List.mem_singleton_self 1

end WeftWarp
