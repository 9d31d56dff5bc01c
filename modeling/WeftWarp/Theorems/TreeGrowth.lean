import WeftWarp.Decomposition
import WeftWarp.SolTree

/-! # How a solution tree grows

Nodes are added one at a time, and the last one is taken away without a trace. A node hangs below the last task or
goal that was decomposed before it. -/

namespace WeftWarp

variable {F : Type}

/-- A node that the search makes: an applied action, or a task or a goal decomposed by method `m`. -/
inductive Made (F : Type) where
  | action (c : TwCall F)
  | method (kind : TwSolKind) (name : String) (args : List (TwValue F)) (m : Nat)

namespace Made

/-- The node is one of an action. -/
def isAction : Made F → Bool
  | .action _ => true
  | .method .. => false

/-- The call of an action. -/
def call : Made F → Option (TwCall F)
  | .action c => some c
  | .method .. => none

/-- The node, where `steps` actions have been applied before. -/
def node (parent : Int) (steps : Nat) : Made F → TwSolNode F
  | .action c => ⟨.action, parent, [], c.name, c.args, -1, steps, -1⟩
  | .method kind name args m => ⟨kind, parent, [], name, args, m, -1, steps⟩

/-- The parent of the node made next. -/
def next (id : Nat) (parent : Int) : Made F → Int
  | .action _ => parent
  | .method .. => id

/-- A decomposition is one of a task or a goal. -/
def Proper : Made F → Prop
  | .action _ => True
  | .method kind .. => kind = .task ∨ kind = .goal

theorem Proper.kind_node {made : Made F} (proper : made.Proper) (parent : Int) (steps : Nat) :
    (made.node parent steps).kind = .action ↔ made.isAction = true := by
  cases made with
  | action c => exact iff_of_true rfl rfl
  | method kind name args m =>
    refine iff_of_false (fun same => ?_) Bool.false_ne_true
    rw [show kind = .action from same] at proper
    rcases proper with h | h <;> cases h

end Made

/-- The calls among the nodes made, which are the plan. -/
def calls (made : List (Made F)) : List (TwCall F) := made.filterMap Made.call

/-- The node with further children. -/
def TwSolNode.withChildren (n : TwSolNode F) (more : List Nat) : TwSolNode F :=
  { n with children := n.children ++ more }

@[simp] theorem withChildren_nil (n : TwSolNode F) : n.withChildren [] = n := by
  rw [TwSolNode.withChildren, List.append_nil]

theorem withChildren_append (n : TwSolNode F) (more later : List Nat) :
    (n.withChildren more).withChildren later = n.withChildren (more ++ later) := by
  rw [TwSolNode.withChildren, TwSolNode.withChildren, TwSolNode.withChildren, List.append_assoc]

namespace TwSolTree

/-- The tree with a node below `parent`. -/
def add (t : TwSolTree F) (parent : Int) (made : Made F) : TwSolTree F :=
  let (id, grown) := t.addNode (made.node parent t.actionNodes.length)
  if made.isAction then { grown with actionNodes := grown.actionNodes ++ [id] } else grown

/-- The tree with nodes added one after the other. -/
def grow : TwSolTree F → Int → List (Made F) → TwSolTree F
  | t, _, [] => t
  | t, parent, made :: later => grow (t.add parent made) (made.next t.nodes.length parent) later

theorem ext_lists {t u : TwSolTree F} (nodes : t.nodes = u.nodes) (actions : t.actionNodes = u.actionNodes) : t = u := by
  obtain ⟨tn, ta⟩ := t
  obtain ⟨un, ua⟩ := u
  cases nodes
  cases actions
  rfl

/-- The child lists and the list of actions hold indices of nodes only. -/
structure Sane (t : TwSolTree F) : Prop where
  children : ∀ n ∈ t.nodes, ∀ c ∈ n.children, c < t.nodes.length
  actions : ∀ a ∈ t.actionNodes, a < t.nodes.length

/-! ### One node -/

section Add
variable {t : TwSolTree F} {parent : Int} {made : Made F}

theorem node_parent (steps : Nat) : (made.node parent steps).parent = parent := by
  cases made <;> rfl

/-- The nodes of the tree, the parent of the new node with the new child. -/
def linked (t : TwSolTree F) (parent : Int) : List (TwSolNode F) :=
  if 0 ≤ parent ∧ parent < (t.nodes.length : Int) then updateChildren t.nodes parent (· ++ [t.nodes.length]) else t.nodes

theorem length_linked : (t.linked parent).length = t.nodes.length := by
  rw [linked]
  split
  · rw [updateChildren, List.length_modify]
  · rfl

theorem getElem?_linked (i : Nat) :
    (t.linked parent)[i]? = t.nodes[i]?.map (·.withChildren (if parent = i then [t.nodes.length] else [])) := by
  rw [linked]
  split
  · rw [updateChildren, List.getElem?_modify]
    by_cases here : parent = i
    · have same : parent.toNat = i := by omega
      simp [here, TwSolNode.withChildren]
    · have other : parent.toNat ≠ i := by omega
      simp [here, other]
  · cases found : t.nodes[i]? with
    | none => rfl
    | some n =>
      have inside := (List.getElem?_eq_some_iff.mp found).1
      have other : parent ≠ i := by omega
      simp [other]

theorem nodes_add : (t.add parent made).nodes = t.linked parent ++ [made.node parent t.actionNodes.length] := by
  cases made <;> rfl

theorem actionNodes_add :
    (t.add parent made).actionNodes = t.actionNodes ++ if made.isAction then [t.nodes.length] else [] := by
  cases made
  · rfl
  · exact (List.append_nil _).symm

theorem length_add : (t.add parent made).nodes.length = t.nodes.length + 1 := by
  rw [nodes_add, List.length_append, List.length_singleton, length_linked]

theorem getElem?_add {i : Nat} (old : i < t.nodes.length) :
    (t.add parent made).nodes[i]? =
      t.nodes[i]?.map (·.withChildren (if parent = i then [t.nodes.length] else [])) := by
  rw [nodes_add, List.getElem?_append_left (by rwa [length_linked]), getElem?_linked]

theorem getElem?_add_self :
    (t.add parent made).nodes[t.nodes.length]? = some (made.node parent t.actionNodes.length) := by
  rw [nodes_add, List.getElem?_append_right (Nat.le_of_eq length_linked), length_linked, Nat.sub_self]
  rfl

theorem Sane.add (sane : t.Sane) (parent : Int) (made : Made F) : (t.add parent made).Sane := by
  constructor
  · intro n mem c child
    rw [length_add]
    rw [nodes_add] at mem
    rcases List.mem_append.mp mem with mem | mem
    · obtain ⟨i, found⟩ := List.getElem?_of_mem mem
      rw [getElem?_linked] at found
      obtain ⟨old, before, rfl⟩ := Option.map_eq_some_iff.mp found
      rcases List.mem_append.mp child with child | child
      · exact Nat.lt_succ_of_lt (sane.children old (List.mem_of_getElem? before) c child)
      · obtain ⟨-, child⟩ := List.mem_ite_nil_right.mp child
        rw [List.mem_singleton.mp child]
        exact Nat.lt_succ_self _
    · rw [List.mem_singleton.mp mem] at child
      cases made <;> cases child
  · intro a mem
    rw [length_add]
    rw [actionNodes_add] at mem
    rcases List.mem_append.mp mem with mem | mem
    · exact Nat.lt_succ_of_lt (sane.actions a mem)
    · obtain ⟨-, mem⟩ := List.mem_ite_nil_right.mp mem
      rw [List.mem_singleton.mp mem]
      exact Nat.lt_succ_self _

/-- The new child is unlinked again. -/
theorem updateChildren_linked (sane : t.Sane) (inside : 0 ≤ parent ∧ parent < (t.nodes.length : Int))
    (later : List (TwSolNode F)) :
    (updateChildren (t.linked parent ++ later) parent (·.filter (· ≠ t.nodes.length))).take t.nodes.length = t.nodes := by
  refine List.ext_getElem? fun i => ?_
  rw [List.getElem?_take]
  split
  · rename_i old
    rw [updateChildren, List.getElem?_modify, List.getElem?_append_left (by rwa [length_linked]), getElem?_linked]
    cases found : t.nodes[i]? with
    | none => rfl
    | some n =>
      by_cases here : parent = i
      · have same : parent.toNat = i := by omega
        have kept : n.children.filter (· ≠ t.nodes.length) = n.children := by
          rw [List.filter_eq_self]
          intro c child
          have := sane.children n (List.mem_of_getElem? found) c child
          exact decide_eq_true (by omega)
        have unlinked : (n.children ++ [t.nodes.length]).filter (· ≠ t.nodes.length) = n.children := by
          rw [List.filter_append, kept]
          simp
        rw [Option.map_some, if_pos here, Option.map_eq_map, Option.map_some, if_pos same]
        exact congrArg (fun cs => some { n with children := cs }) unlinked
      · have other : parent.toNat ≠ i := by omega
        simp [here, other]
  · rename_i new
    rw [List.getElem?_eq_none (by omega)]

theorem restore_add (sane : t.Sane) (parent : Int) (made : Made F) :
    (t.add parent made).restore t.nodes.length = t := by
  have dropped : (t.add parent made).nodes.drop t.nodes.length = [made.node parent t.actionNodes.length] := by
    rw [nodes_add, List.drop_append_of_le_length (Nat.le_of_eq length_linked.symm),
      List.drop_eq_nil_of_le (Nat.le_of_eq length_linked), List.nil_append]
  have nodes : ((t.add parent made).restore t.nodes.length).nodes = t.nodes := by
    rw [restore]
    dsimp only
    rw [dropped, List.zipIdx_singleton, List.foldl_cons, List.foldl_nil, node_parent, nodes_add]
    split
    · rename_i inside
      exact updateChildren_linked sane inside _
    · rename_i outside
      rw [linked, if_neg outside, List.take_append_of_le_length (Nat.le_refl _), List.take_length]
  have kept : t.actionNodes.rdropWhile (fun a => decide (t.nodes.length ≤ a)) = t.actionNodes := by
    refine List.rdropWhile_eq_self_iff.mpr fun some => ?_
    have := sane.actions _ (List.getLast_mem some)
    simpa using this
  have actions : ((t.add parent made).restore t.nodes.length).actionNodes = t.actionNodes := by
    rw [restore]
    dsimp only
    rw [actionNodes_add]
    split
    · rw [List.rdropWhile_concat_pos (fun a => decide (t.nodes.length ≤ a)) _ _ (decide_eq_true (Nat.le_refl _)), kept]
    · rw [List.append_nil, kept]
  exact ext_lists nodes actions

end Add

/-! ### The grown tree -/

/-- The children that node `i` gets, where the next node is `id`. -/
def newChildren : Nat → Int → List (Made F) → Nat → List Nat
  | _, _, [], _ => []
  | id, parent, made :: later, i =>
    (if parent = i then [id] else []) ++ newChildren (id + 1) (made.next id parent) later i

/-- The ids of the actions. -/
def newActions : Nat → List (Made F) → List Nat
  | _, [] => []
  | id, made :: later => (if made.isAction then [id] else []) ++ newActions (id + 1) later

/-- The parent of the node made behind these. -/
def nextParent : Nat → Int → List (Made F) → Int
  | _, parent, [] => parent
  | id, parent, made :: later => nextParent (id + 1) (made.next id parent) later

section Grow
variable {t : TwSolTree F} {parent : Int} {made : Made F} {later : List (Made F)}

theorem length_grow (t : TwSolTree F) (parent : Int) (all : List (Made F)) :
    (t.grow parent all).nodes.length = t.nodes.length + all.length := by
  induction all generalizing t parent with
  | nil => rfl
  | cons made later ih =>
    rw [grow, ih, length_add, List.length_cons, Nat.add_assoc, Nat.add_comm 1]

theorem Sane.grow (sane : t.Sane) (parent : Int) (all : List (Made F)) : (t.grow parent all).Sane := by
  induction all generalizing t parent with
  | nil => exact sane
  | cons made later ih => exact ih (sane.add parent made) _

variable {i id : Nat}

theorem getElem?_grow (old : i < t.nodes.length) (parent : Int) (all : List (Made F)) :
    (t.grow parent all).nodes[i]? = t.nodes[i]?.map (·.withChildren (newChildren t.nodes.length parent all i)) := by
  induction all generalizing t parent with
  | nil => simp [grow, newChildren]
  | cons made later ih =>
    have old' : i < (t.add parent made).nodes.length := by
      rw [length_add]
      omega
    rw [grow, ih old', length_add, getElem?_add old, Option.map_map, newChildren]
    congr 1
    funext n
    exact withChildren_append n _ _

theorem getElem?_grow_self (t : TwSolTree F) (parent : Int) (made : Made F) (later : List (Made F)) :
    (t.grow parent (made :: later)).nodes[t.nodes.length]? =
      some ((made.node parent t.actionNodes.length).withChildren
        (newChildren (t.nodes.length + 1) (made.next t.nodes.length parent) later t.nodes.length)) := by
  have inside : t.nodes.length < (t.add parent made).nodes.length := by
    rw [length_add]
    omega
  rw [grow, getElem?_grow inside, getElem?_add_self, length_add]
  rfl

theorem actionNodes_grow (t : TwSolTree F) (parent : Int) (all : List (Made F)) :
    (t.grow parent all).actionNodes = t.actionNodes ++ newActions t.nodes.length all := by
  induction all generalizing t parent with
  | nil => exact (List.append_nil _).symm
  | cons made later ih => rw [grow, ih, actionNodes_add, length_add, newActions, List.append_assoc]

theorem grow_append (t : TwSolTree F) (parent : Int) (front later : List (Made F)) :
    t.grow parent (front ++ later) = (t.grow parent front).grow (nextParent t.nodes.length parent front) later := by
  induction front generalizing t parent with
  | nil => rfl
  | cons made front ih =>
    rw [List.cons_append, grow, ih, length_add]
    rfl

variable {all : List (Made F)}

/-- A node that was added was the next one at some point. -/
theorem exists_next (new : t.nodes.length ≤ id) (inside : id < (t.grow parent all).nodes.length) :
    ∃ front made later, all = front ++ made :: later ∧ (t.grow parent front).nodes.length = id := by
  rw [length_grow] at inside
  have bound : id - t.nodes.length < all.length := by omega
  refine ⟨all.take (id - t.nodes.length), all.get ⟨_, bound⟩, all.drop (id - t.nodes.length + 1), ?_, ?_⟩
  · rw [List.get_eq_getElem, ← List.drop_eq_getElem_cons bound, List.take_append_drop]
  · rw [length_grow, List.length_take]
    omega

theorem nextParent_lt (all : List (Made F)) (before : parent < (id : Int)) :
    nextParent id parent all < ((id + all.length : Nat) : Int) := by
  induction all generalizing id parent with
  | nil => exact before
  | cons made later ih =>
    have next : made.next id parent < ((id + 1 : Nat) : Int) := by
      cases made <;> rw [Made.next] <;> omega
    have bound := ih next
    rw [nextParent, List.length_cons]
    omega

theorem le_of_mem_newChildren {c : Nat} (mem : c ∈ newChildren id parent all i) : id ≤ c := by
  induction all generalizing id parent with
  | nil => cases mem
  | cons made later ih =>
    rcases List.mem_append.mp mem with mem | mem
    · obtain ⟨-, mem⟩ := List.mem_ite_nil_right.mp mem
      exact Nat.le_of_eq (List.mem_singleton.mp mem).symm
    · exact Nat.le_of_succ_le (ih mem)

theorem newChildren_of_lt (all : List (Made F)) (below : (i : Int) < parent) (old : i < id) :
    newChildren id parent all i = [] := by
  induction all generalizing id parent with
  | nil => rfl
  | cons made later ih =>
    have next : (i : Int) < made.next id parent := by
      cases made <;> rw [Made.next] <;> omega
    rw [newChildren, if_neg (by omega), ih next (by omega), List.nil_append]

theorem le_of_mem_newActions {a : Nat} (mem : a ∈ newActions id all) : id ≤ a := by
  induction all generalizing id with
  | nil => cases mem
  | cons made later ih =>
    rcases List.mem_append.mp mem with mem | mem
    · obtain ⟨-, mem⟩ := List.mem_ite_nil_right.mp mem
      exact Nat.le_of_eq (List.mem_singleton.mp mem).symm
    · exact Nat.le_of_succ_le (ih mem)

end Grow
end TwSolTree

/-! ### One level of the search -/

theorem tree_markFail (memo : TwTreeMemo F) (key : TwMemoKey) : (memo.markFail key).tree = memo.tree := by
  rw [TwTreeMemo.markFail]
  split <;> rfl

/-- What one level of `tw_seek_plan_tree` can return. -/
inductive TreeLevel [Cxx F] (d : TwDomain F) (bl : TwBlacklist) (skip : TwMethodSkip)
    (seek : TwState F → List (TwTask F) → Int → TwTreeMemo F → SeekTree F) (s : TwState F) (parent : Int)
    (memo : TwTreeMemo F) : List (TwTask F) → SeekTree F → Prop
  | done : TreeLevel d bl skip seek s parent memo [] (.ok (some [], memo))
  | thrown {tasks} (e) : TreeLevel d bl skip seek s parent memo tasks (.error e)
  | failed {tasks} : TreeLevel d bl skip seek s parent memo tasks (.ok (none, memo))
  | marked {tasks} (key) : TreeLevel d bl skip seek s parent memo tasks (.ok (none, memo.markFail key))
  | goalMet {g rest} : g.isSatisfied s = .ok true →
      TreeLevel d bl skip seek s parent memo (.goal g :: rest) (seek s rest parent memo)
  | goalVia {g rest b unmet} (key) : g.unsatisfied s = .ok (b :: unmet) →
      TreeLevel d bl skip seek s parent memo (.goal g :: rest)
        ((seekTreeMethods d bl skip s parent (seek s) .goal b.var [.string b.key, b.desired]
          (fun subs => subs ++ .goal g :: rest) memo).orMark key)
  | multiMet {mg rest} : mg.isSatisfied s = .ok true →
      TreeLevel d bl skip seek s parent memo (.multiGoal mg :: rest) (seek s rest parent memo)
  | multiVia {mg rest unmet} (key) : mg.unsatisfied s = .ok unmet →
      TreeLevel d bl skip seek s parent memo (.multiGoal mg :: rest)
        ((tryTreeBindings parent (seek s) mg rest unmet memo).orMark key)
  | task {c rest} (key) : d.actions.find? c.name = none →
      TreeLevel d bl skip seek s parent memo (.call c :: rest)
        ((seekTreeMethods d bl skip s parent (seek s) .task c.name c.args (fun subs => subs ++ rest) memo).orMark key)
  | act {c rest action s' plan memo'} : d.actions.find? c.name = some action → action s c.args = some s' →
      seek s' rest parent (memo.addAction parent c) = .ok (some plan, memo') →
      TreeLevel d bl skip seek s parent memo (.call c :: rest) (.ok (some (c :: plan), memo'))
  | undo {c rest action s' memo'} (key) : d.actions.find? c.name = some action → action s c.args = some s' →
      seek s' rest parent (memo.addAction parent c) = .ok (none, memo') →
      TreeLevel d bl skip seek s parent memo (.call c :: rest)
        (.ok (none, (memo'.restore memo.tree.checkpoint).markFail key))

theorem treeStep_level [Cxx F] (d : TwDomain F) (bl : TwBlacklist) (skip : TwMethodSkip)
    (seek : TwState F → List (TwTask F) → Int → TwTreeMemo F → SeekTree F) (s : TwState F) (tasks : List (TwTask F))
    (parent : Int) (memo : TwTreeMemo F) :
    TreeLevel d bl skip seek s parent memo tasks (treeStep d bl skip seek s tasks parent memo) := by
  cases tasks with
  | nil => exact .done
  | cons t rest =>
    cases t with
    | goal g =>
      rw [treeStep]
      split
      · exact .failed
      · cases met : g.isSatisfied s with
        | error e => exact .thrown e
        | ok sat =>
          cases sat with
          | true => exact .goalMet met
          | false =>
            cases unmet : g.unsatisfied s with
            | error e => exact .thrown e
            | ok bs =>
              cases bs with
              | nil => exact .failed
              | cons b bs => exact .goalVia _ unmet
    | multiGoal mg =>
      rw [treeStep]
      split
      · exact .failed
      · cases met : mg.isSatisfied s with
        | error e => exact .thrown e
        | ok sat =>
          cases sat with
          | true => exact .multiMet met
          | false =>
            cases unmet : mg.unsatisfied s with
            | error e => exact .thrown e
            | ok bs => exact .multiVia _ unmet
    | call c =>
      rw [treeStep]
      split
      · exact .failed
      · cases ha : d.actions.find? c.name with
        | none => exact .task _ ha
        | some action =>
          dsimp only
          split
          · exact .marked _
          · cases hs : action s c.args with
            | none => exact .marked _
            | some s' =>
              dsimp only
              rcases below : seek s' rest parent (memo.addAction parent c) with e | ⟨_ | plan, memo'⟩
              · exact .thrown e
              · exact .undo _ ha hs below
              · exact .act ha hs below

end WeftWarp
