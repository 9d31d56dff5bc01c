import WeftWarp.Theorems.Exclusion
import WeftWarp.Theorems.TreeOrigins

/-! # The bookkeeping of the solution tree

What a search leaves in the tree: nothing where it fails, and where it finds a plan one action node for every step and
the nodes of the decompositions. -/

namespace WeftWarp

variable {F : Type}

namespace TwSolTree

/-! ### Links -/

/-- The parent of node `i` stands before it and has it as a child once. A node of a negative parent is a root. -/
def LinkedAt (t : TwSolTree F) (i : Nat) : Prop :=
  ∃ n, t.nodes[i]? = some n ∧ n.parent < i ∧
    (0 ≤ n.parent → ∃ p, t.nodes[n.parent.toNat]? = some p ∧ p.children.count i = 1)

/-- The first action on the way through the subtree of a node, child by child; the fuel bounds the depth. -/
def firstActionFrom (t : TwSolTree F) : Nat → Nat → Option Nat
  | 0, _ => none
  | fuel + 1, i =>
    match t.nodes[i]? with
    | none => none
    | some n => if n.kind = .action then some i else n.children.findSome? (firstActionFrom t fuel)

/-- The leftmost action below a node. -/
def leftmostAction (t : TwSolTree F) (i : Nat) : Option Nat := t.firstActionFrom t.nodes.length i

section Links
variable {t : TwSolTree F} {parent : Int}

theorem LinkedAt.grow {i : Nat} (linked : t.LinkedAt i) (parent : Int) (all : List (Made F)) :
    (t.grow parent all).LinkedAt i := by
  obtain ⟨n, found, before, link⟩ := linked
  have inside : i < t.nodes.length := (List.getElem?_eq_some_iff.mp found).1
  refine ⟨n.withChildren (newChildren t.nodes.length parent all i), by rw [getElem?_grow inside, found]; rfl, before, ?_⟩
  intro inTree
  obtain ⟨p, foundParent, once⟩ := link inTree
  have parentInside : n.parent.toNat < t.nodes.length := (List.getElem?_eq_some_iff.mp foundParent).1
  refine ⟨p.withChildren (newChildren t.nodes.length parent all n.parent.toNat), ?_, ?_⟩
  · change (t.grow parent all).nodes[n.parent.toNat]? = _
    rw [getElem?_grow parentInside, foundParent]
    rfl
  · have others : (newChildren t.nodes.length parent all n.parent.toNat).count i = 0 := by
      refine List.count_eq_zero_of_not_mem fun mem => ?_
      have := le_of_mem_newChildren mem
      omega
    rw [TwSolNode.withChildren, List.count_append, once, others]

/-- The node added next is linked. -/
theorem linkedAt_grow_cons (sane : t.Sane) (before : parent < (t.nodes.length : Int)) (made : Made F)
    (later : List (Made F)) : (t.grow parent (made :: later)).LinkedAt t.nodes.length := by
  have hangs : ((made.node parent t.actionNodes.length).withChildren (newChildren (t.nodes.length + 1)
      (made.next t.nodes.length parent) later t.nodes.length)).parent = parent := node_parent _
  refine ⟨_, getElem?_grow_self t parent made later, by rwa [hangs], ?_⟩
  rw [hangs]
  intro inTree
  have inside : parent.toNat < t.nodes.length := by omega
  have found : t.nodes[parent.toNat]? = some (t.nodes.get ⟨parent.toNat, inside⟩) := List.getElem?_eq_getElem inside
  generalize t.nodes.get ⟨parent.toNat, inside⟩ = p at found
  refine ⟨p.withChildren (newChildren t.nodes.length parent (made :: later) parent.toNat), ?_, ?_⟩
  · rw [getElem?_grow inside, found]
    rfl
  have here : parent = (parent.toNat : Int) := by omega
  have old : p.children.count t.nodes.length = 0 := by
    refine List.count_eq_zero_of_not_mem fun mem => ?_
    have := sane.children p (List.mem_of_getElem? found) _ mem
    omega
  have laterOnes : (newChildren (t.nodes.length + 1) (made.next t.nodes.length parent) later parent.toNat).count
      t.nodes.length = 0 := by
    refine List.count_eq_zero_of_not_mem fun mem => ?_
    have := le_of_mem_newChildren mem
    omega
  rw [TwSolNode.withChildren, newChildren, if_pos here, List.count_append, List.count_append, old, laterOnes,
    List.count_singleton_self]

/-! ### Steps -/

theorem firstActionFrom_succ {fuel i : Nat} {n : TwSolNode F} (found : t.nodes[i]? = some n) :
    t.firstActionFrom (fuel + 1) i =
      if n.kind = .action then some i else n.children.findSome? (t.firstActionFrom fuel) := by
  rw [firstActionFrom, found]

theorem firstActionFrom_action (t : TwSolTree F) (parent : Int) {made : Made F} (acts : made.isAction = true)
    (later : List (Made F)) (fuel : Nat) :
    (t.grow parent (made :: later)).firstActionFrom (fuel + 1) t.nodes.length =
      (newActions t.nodes.length (made :: later)).head? := by
  rw [firstActionFrom_succ (getElem?_grow_self t parent made later)]
  cases made with
  | action c => exact if_pos rfl
  | method kind name args m => cases acts

theorem firstActionFrom_method (t : TwSolTree F) (parent : Int) {made : Made F} (proper : made.Proper)
    (decomposes : made.isAction = false) (later : List (Made F)) (fuel : Nat) :
    (t.grow parent (made :: later)).firstActionFrom (fuel + 1) t.nodes.length =
      (newChildren (t.nodes.length + 1) t.nodes.length later t.nodes.length).findSome?
        ((t.grow parent (made :: later)).firstActionFrom fuel) := by
  have other : (made.node parent t.actionNodes.length).kind ≠ .action := by
    rw [Ne, proper.kind_node, decomposes]
    exact Bool.false_ne_true
  rw [firstActionFrom_succ (getElem?_grow_self t parent made later)]
  cases made with
  | action c => cases decomposes
  | method kind name args m => exact if_neg other

theorem firstActionFrom_grow (t : TwSolTree F) (parent : Int) (made : Made F) (later : List (Made F))
    (proper : ∀ x ∈ made :: later, x.Proper) {fuel : Nat} (enough : later.length < fuel) :
    (t.grow parent (made :: later)).firstActionFrom fuel t.nodes.length =
      (newActions t.nodes.length (made :: later)).head? := by
  induction later generalizing t parent made fuel with
  | nil =>
    obtain ⟨fuel, rfl⟩ : ∃ k, fuel = k + 1 := ⟨fuel - 1, by omega⟩
    cases acts : made.isAction with
    | true => exact firstActionFrom_action t parent acts _ fuel
    | false =>
      rw [firstActionFrom_method t parent (proper made List.mem_cons_self) acts, newActions, acts]
      rfl
  | cons made' later ih =>
    obtain ⟨fuel, rfl⟩ : ∃ k, fuel = k + 1 := ⟨fuel - 1, by omega⟩
    cases acts : made.isAction with
    | true => exact firstActionFrom_action t parent acts _ fuel
    | false =>
      have enough : later.length < fuel := Nat.lt_of_succ_lt_succ enough
      have below := ih (t.add parent made) t.nodes.length made' (fun x mem => proper x (List.mem_cons_of_mem _ mem)) enough
      have grown : t.grow parent (made :: made' :: later) = (t.add parent made).grow t.nodes.length (made' :: later) := by
        cases made with
        | action c => cases acts
        | method kind name args m => rfl
      rw [length_add, ← grown] at below
      rw [firstActionFrom_method t parent (proper made List.mem_cons_self) acts, newActions, acts, newChildren,
        if_pos rfl, List.singleton_append, List.findSome?_cons, below]
      -- An action is found at once; behind a decomposition there are no further children.
      cases acts' : made'.isAction with
      | true =>
        rw [newActions, if_pos acts']
        rfl
      | false =>
        have alone : newChildren (t.nodes.length + 1 + 1) (made'.next (t.nodes.length + 1) t.nodes.length) later
            t.nodes.length = [] := by
          cases made' with
          | action c => cases acts'
          | method kind name args m => exact newChildren_of_lt later (by rw [Made.next]; omega) (by omega)
        rw [alone, if_neg Bool.false_ne_true, List.nil_append]
        cases (newActions (t.nodes.length + 1) (made' :: later)).head? <;> rfl

theorem length_newActions (id : Nat) (all : List (Made F)) : (newActions id all).length = (calls all).length := by
  induction all generalizing id with
  | nil => rfl
  | cons made later ih =>
    rw [newActions, List.length_append, ih]
    cases made
    · exact Nat.add_comm 1 _
    · exact Nat.zero_add _

theorem pairwise_newActions (id : Nat) (all : List (Made F)) : (newActions id all).Pairwise (· < ·) := by
  induction all generalizing id with
  | nil => exact List.Pairwise.nil
  | cons made later ih =>
    rw [newActions]
    split
    · exact List.pairwise_cons.mpr ⟨fun a mem => le_of_mem_newActions mem, ih (id + 1)⟩
    · exact ih (id + 1)

/-- The node of every call has its name, its arguments and its place in the plan. -/
theorem node_of_call (t : TwSolTree F) (parent : Int) (all : List (Made F)) {i : Nat} {c : TwCall F}
    (call : (calls all)[i]? = some c) :
    ∃ id n, (newActions t.nodes.length all)[i]? = some id ∧ (t.grow parent all).nodes[id]? = some n ∧
      n.kind = .action ∧ n.name = c.name ∧ n.args = c.args ∧ n.planStep = (t.actionNodes.length + i : Nat) := by
  induction all generalizing t parent i with
  | nil => cases call
  | cons made later ih =>
    have below {j : Nat} (call : (calls later)[j]? = some c) :=
      ih (t.add parent made) (made.next t.nodes.length parent) call
    rw [length_add, actionNodes_add] at below
    cases made with
    | method kind name args m =>
      obtain ⟨id, n, place, found, action, name, args, step⟩ := below call
      exact ⟨id, n, place, found, action, name, args, by simpa [Made.isAction] using step⟩
    | action c' =>
      cases i with
      | zero =>
        obtain rfl := Option.some.inj call
        exact ⟨t.nodes.length, _, rfl, getElem?_grow_self t parent (.action c') later, rfl, rfl, rfl, rfl⟩
      | succ i =>
        obtain ⟨id, n, place, found, action, name, args, step⟩ := below call
        refine ⟨id, n, place, found, action, name, args, ?_⟩
        rw [step, List.length_append, Made.isAction, if_pos rfl, List.length_singleton, Nat.add_assoc, Nat.add_comm 1]

end Links

/-! ### What is recorded -/

/-- The tree `u` is the tree `t` with the plan and its derivation recorded. -/
structure Records (t : TwSolTree F) (plan : List (TwCall F)) (u : TwSolTree F) : Prop where
  /-- The old nodes get new children, and nothing else changes in them. -/
  kept : ∀ (i : Nat) (n : TwSolNode F), t.nodes[i]? = some n →
    ∃ more, u.nodes[i]? = some (n.withChildren more) ∧ ∀ c ∈ more, t.nodes.length ≤ c
  /-- One action node for every step, in order; no other node that was added is an action. -/
  actions : ∃ new, u.actionNodes = t.actionNodes ++ new ∧ new.length = plan.length ∧ new.Pairwise (· < ·) ∧
    (∀ (i : Nat) c, plan[i]? = some c → ∃ id n, new[i]? = some id ∧ u.nodes[id]? = some n ∧ n.kind = .action ∧
      n.name = c.name ∧ n.args = c.args ∧ n.planStep = (t.actionNodes.length + i : Nat)) ∧
    ∀ id n, t.nodes.length ≤ id → u.nodes[id]? = some n → (n.kind = .action ↔ id ∈ new)
  /-- A task or goal that was added is numbered by the actions before it, and the action of this number, if there is
      one, is the leftmost below it. -/
  steps : ∀ id n, t.nodes.length ≤ id → u.nodes[id]? = some n → n.kind = .task ∨ n.kind = .goal →
    n.firstStep = u.actionNodes.countP (· < id) ∧ u.leftmostAction id = u.actionNodes[n.firstStep.toNat]? ∧
      ∀ a m, u.leftmostAction id = some a → u.nodes[a]? = some m → m.planStep = n.firstStep
  linkedOld : ∀ i, t.LinkedAt i → u.LinkedAt i

section Records
variable {t : TwSolTree F} {parent : Int} {all : List (Made F)}

/-- The numbers of the node that is added next. -/
theorem steps_grow_cons (sane : t.Sane) (parent : Int) {made : Made F} {later : List (Made F)}
    (proper : ∀ x ∈ made :: later, x.Proper) {n : TwSolNode F}
    (found : (t.grow parent (made :: later)).nodes[t.nodes.length]? = some n) (choice : n.kind = .task ∨ n.kind = .goal) :
    n.firstStep = t.actionNodes.length ∧
      (t.grow parent (made :: later)).actionNodes.countP (· < t.nodes.length) = t.actionNodes.length ∧
      (t.grow parent (made :: later)).leftmostAction t.nodes.length =
        (t.grow parent (made :: later)).actionNodes[t.actionNodes.length]? := by
  rw [getElem?_grow_self] at found
  obtain rfl := Option.some.inj found
  refine ⟨?_, ?_, ?_⟩
  · cases made with
    | action c => rcases choice with h | h <;> cases h
    | method kind name args m => rfl
  · rw [actionNodes_grow, List.countP_append]
    have old : t.actionNodes.countP (· < t.nodes.length) = t.actionNodes.length :=
      List.countP_eq_length.mpr fun a mem => decide_eq_true (sane.actions a mem)
    have new : (newActions t.nodes.length (made :: later)).countP (· < t.nodes.length) = 0 := by
      refine List.countP_eq_zero.mpr fun a mem => ?_
      have := le_of_mem_newActions mem
      simpa using this
    rw [old, new, Nat.add_zero]
  · have enough : later.length < (t.grow parent (made :: later)).nodes.length := by
      rw [length_grow, List.length_cons]
      omega
    rw [leftmostAction, firstActionFrom_grow t parent made later proper enough, actionNodes_grow,
      List.getElem?_append_right (Nat.le_refl _), Nat.sub_self, List.head?_eq_getElem?]

theorem planStep_of_next (t : TwSolTree F) (parent : Int) {all : List (Made F)} {a : Nat} {m : TwSolNode F}
    (next : (t.grow parent all).actionNodes[t.actionNodes.length]? = some a)
    (found : (t.grow parent all).nodes[a]? = some m) : m.planStep = t.actionNodes.length := by
  rw [actionNodes_grow, List.getElem?_append_right (Nat.le_refl _), Nat.sub_self] at next
  have some : 0 < (calls all).length := by
    rw [← length_newActions t.nodes.length]
    exact (List.getElem?_eq_some_iff.mp next).1
  obtain ⟨id, n, place, foundNode, -, -, -, step⟩ := node_of_call t parent all (List.getElem?_eq_getElem some)
  obtain rfl := Option.some.inj (next.symm.trans place)
  obtain rfl := Option.some.inj (found.symm.trans foundNode)
  exact step

theorem mem_newActions_iff {id : Nat} {made : Made F} {later : List (Made F)} :
    id ∈ newActions id (made :: later) ↔ made.isAction = true := by
  rw [newActions]
  constructor
  · intro mem
    rcases List.mem_append.mp mem with mem | mem
    · exact (List.mem_ite_nil_right.mp mem).1
    · have := le_of_mem_newActions mem
      omega
  · intro acts
    rw [if_pos acts]
    exact List.mem_append_left _ (List.mem_singleton_self id)

theorem newActions_append (id : Nat) (front later : List (Made F)) :
    newActions id (front ++ later) = newActions id front ++ newActions (id + front.length) later := by
  induction front generalizing id with
  | nil => rfl
  | cons made front ih =>
    rw [List.cons_append, newActions, newActions, ih, List.append_assoc, List.length_cons, Nat.add_assoc, Nat.add_comm 1]

theorem lt_of_mem_newActions {id a : Nat} (mem : a ∈ newActions id all) : a < id + all.length := by
  induction all generalizing id with
  | nil => cases mem
  | cons made later ih =>
    rw [List.length_cons]
    rcases List.mem_append.mp mem with mem | mem
    · obtain ⟨-, mem⟩ := List.mem_ite_nil_right.mp mem
      rw [List.mem_singleton.mp mem]
      omega
    · have := ih mem
      omega

theorem records_grow (sane : t.Sane) (parent : Int) (proper : ∀ x ∈ all, x.Proper) :
    Records t (calls all) (t.grow parent all) := by
  constructor
  case kept =>
    intro i n found
    have inside : i < t.nodes.length := (List.getElem?_eq_some_iff.mp found).1
    refine ⟨newChildren t.nodes.length parent all i, ?_, fun c mem => le_of_mem_newChildren mem⟩
    rw [getElem?_grow inside, found]
    rfl
  case linkedOld => exact fun i linked => linked.grow parent all
  case actions =>
    refine ⟨newActions t.nodes.length all, actionNodes_grow t parent all, length_newActions _ all,
      pairwise_newActions _ all, fun i c call => node_of_call t parent all call, ?_⟩
    intro id n new found
    obtain ⟨front, made, later, rfl, rfl⟩ := exists_next new (List.getElem?_eq_some_iff.mp found).1
    have properMade : made.Proper := proper made (List.mem_append_right _ List.mem_cons_self)
    rw [grow_append, getElem?_grow_self] at found
    obtain rfl := Option.some.inj found
    have earlier : (t.grow parent front).nodes.length ∉ newActions t.nodes.length front := by
      intro mem
      have := lt_of_mem_newActions mem
      rw [length_grow] at this
      omega
    rw [newActions_append, ← length_grow t parent front, List.mem_append, or_iff_right earlier, mem_newActions_iff]
    exact properMade.kind_node _ _
  case steps =>
    intro id n new found choice
    obtain ⟨front, made, later, rfl, rfl⟩ := exists_next new (List.getElem?_eq_some_iff.mp found).1
    rw [grow_append] at found ⊢
    have properLater : ∀ x ∈ made :: later, x.Proper := fun x mem => proper x (List.mem_append_right _ mem)
    obtain ⟨first, before, leftmost⟩ := steps_grow_cons (sane.grow parent front) _ properLater found choice
    refine ⟨by rw [first, before], by rw [leftmost, first, Int.toNat_natCast], fun a m isLeftmost foundAction => ?_⟩
    rw [first]
    exact planStep_of_next _ _ (leftmost ▸ isLeftmost) foundAction

end Records
end TwSolTree

theorem TwSolTree.sane_rooted : (rooted : TwSolTree F).Sane where
  children := by
    intro n mem c child
    rw [List.mem_singleton.mp mem] at child
    cases child
  actions := fun _ mem => nomatch mem

/-! ### Every call -/

variable [Cxx F]

/-- A call without a plan leaves the tree as it was, and a call with one records it; if the given parent stands before
    the new nodes, every new node is linked. The child lists and the list of actions are assumed to hold nodes only. -/
theorem twSeekPlanTree_bookkeeping (d : TwDomain F) (bl : TwBlacklist) (skip : TwMethodSkip) (fuel : Nat) (s : TwState F)
    (tasks : List (TwTask F)) (parent : Int) (memo : TwTreeMemo F) (sane : memo.tree.Sane) :
    (∀ memo', twSeekPlanTree d bl skip fuel s tasks parent memo = .ok (none, memo') → memo'.tree = memo.tree) ∧
    ∀ plan memo', twSeekPlanTree d bl skip fuel s tasks parent memo = .ok (some plan, memo') →
      memo.tree.Records plan memo'.tree ∧
        (parent < memo.tree.nodes.length →
          ∀ id, memo.tree.nodes.length ≤ id → id < memo'.tree.nodes.length → memo'.tree.LinkedAt id) := by
  have grows := twSeekPlanTree_grows d bl skip fuel s tasks parent memo sane
  constructor
  · intro memo' failed
    rw [failed] at grows
    exact grows
  · intro plan memo' found
    rw [found] at grows
    obtain ⟨made, tree, rfl, unfolded⟩ := grows
    rw [tree]
    refine ⟨TwSolTree.records_grow sane parent unfolded.proper, fun before id new inside => ?_⟩
    obtain ⟨front, next, later, rfl, rfl⟩ := TwSolTree.exists_next new inside
    rw [TwSolTree.grow_append]
    refine TwSolTree.linkedAt_grow_cons (sane.grow parent front) ?_ next later
    rw [TwSolTree.length_grow]
    exact TwSolTree.nextParent_lt front before

/-- No node stands before its parent. -/
def ParentsPrecede (t : TwSolTree F) : Prop := ∀ x ∈ t.nodes.zipIdx, x.1.parent < (x.2 : Int)

instance (t : TwSolTree F) : Decidable (ParentsPrecede t) :=
  inferInstanceAs (Decidable (∀ x ∈ t.nodes.zipIdx, x.1.parent < (x.2 : Int)))

/-- A root with a child that does not exist. -/
def danglingTree : TwSolTree Int := ⟨[⟨.root, -1, [1], "", [], -1, -1, -1⟩], []⟩

/-- A root that does not have its only child on its list; the child says that seven actions stand before it. -/
def looseTree : TwSolTree Int := ⟨[⟨.root, -1, [], "", [], -1, -1, -1⟩, ⟨.task, 0, [], "send", [], 0, -1, 7⟩], []⟩

/-- A failed search takes the child that does not exist from the list of the root, a search with a plan leaves the loose
    node as it is, and a parent beyond the tree is written into a node before it. -/
theorem twSeekPlanTree_bookkeeping_needs_links :
    (ParentsPrecede danglingTree ∧
      (twSeekPlanTree letterDomain ["mail", "courier"] .empty 2 .empty [.call ⟨"send", []⟩] 0 ⟨danglingTree, some []⟩).map
        (fun r => (r.1, r.2.tree)) = .ok (none, .rooted)) ∧
    (ParentsPrecede looseTree ∧
      (twSeekPlanTree letterDomain [] .empty 2 .empty [] 0 ⟨looseTree, some []⟩).map (fun r => (r.1, r.2.tree)) =
        .ok (some [], looseTree) ∧
      ¬looseTree.LinkedAt 1 ∧ looseTree.actionNodes.countP (· < 1) ≠ 7) ∧
    (twSeekPlanTree letterDomain [] .empty 2 .empty [.call ⟨"mail", []⟩] 5 ⟨.rooted, some []⟩).map
      (fun r => (r.1, r.2.tree)) =
        .ok (some [⟨"mail", []⟩], ⟨[⟨.root, -1, [], "", [], -1, -1, -1⟩, ⟨.action, 5, [], "mail", [], -1, 0, -1⟩], [1]⟩) := by
  refine ⟨⟨by decide, by decide +kernel⟩, ⟨by decide, by decide +kernel, ?_, by decide⟩, by decide +kernel⟩
  rintro ⟨n, found, -, link⟩
  obtain rfl := Option.some.inj found
  obtain ⟨p, root, once⟩ := link (by decide)
  obtain rfl := Option.some.inj root
  cases once

theorem twSeekPlanTree_bookkeeping_letter :
    ∃ memo', twSeekPlanTree letterDomain [] .empty 3 .empty [.call ⟨"send", []⟩] 0 ⟨.rooted, some []⟩ =
        .ok (some [⟨"mail", []⟩], memo') ∧
      TwSolTree.rooted.Records [⟨"mail", []⟩] memo'.tree ∧ memo'.tree.LinkedAt 2 := by
  obtain ⟨-, found⟩ := twSeekPlanTree_bookkeeping letterDomain [] .empty 3 .empty [.call ⟨"send", []⟩] 0
    ⟨.rooted, some []⟩ TwSolTree.sane_rooted
  obtain ⟨records, linked⟩ := found _ _ rfl
  exact ⟨_, rfl, records, linked (by decide) 2 (by decide) (by decide)⟩

end WeftWarp
