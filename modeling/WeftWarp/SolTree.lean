import Mathlib.Data.List.DropRight
import WeftWarp.Planner

/-! # The explaining planner

The derivation tree of `tw_soltree.hpp` and `tw_seek_plan_tree`, which builds it while it searches. The tree
pointer is never null here, as in `tw_plan_with_tree`; a null map of skipped methods is the empty map. -/

namespace WeftWarp

open TwJson (Thrown)

/-- `TwSolNode::Kind`. -/
inductive TwSolKind where
  | root
  | task
  | action
  | goal
  | multiGoal
  deriving DecidableEq

structure TwSolNode (F : Type) where
  kind : TwSolKind
  parent : Int
  children : List Nat
  name : String
  args : List (TwValue F)
  methodIdx : Int
  planStep : Int
  firstStep : Int
  deriving DecidableEq

structure TwSolTree (F : Type) where
  nodes : List (TwSolNode F)
  actionNodes : List Nat
  deriving DecidableEq

namespace TwSolTree
variable {F : Type}

def rooted : TwSolTree F := ⟨[⟨.root, -1, [], "", [], -1, -1, -1⟩], []⟩

/-- `nodes[p].children` after `f`. -/
def updateChildren (nodes : List (TwSolNode F)) (p : Int) (f : List Nat → List Nat) : List (TwSolNode F) :=
  nodes.modify p.toNat fun n => { n with children := f n.children }

/-- `add_node` and the fields that its caller writes into the new node. -/
def addNode (t : TwSolTree F) (n : TwSolNode F) : Nat × TwSolTree F :=
  let id := t.nodes.length
  let nodes := if 0 ≤ n.parent ∧ n.parent < (id : Int) then updateChildren t.nodes n.parent (· ++ [id]) else t.nodes
  (id, { t with nodes := nodes ++ [n] })

def checkpoint (t : TwSolTree F) : Nat := t.nodes.length

def restore (t : TwSolTree F) (cp : Nat) : TwSolTree F where
  nodes := (((t.nodes.drop cp).zipIdx cp).foldl (fun nodes n =>
    if 0 ≤ n.1.parent ∧ n.1.parent < (cp : Int) then updateChildren nodes n.1.parent (·.filter (· ≠ n.2)) else nodes)
    t.nodes).take cp
  actionNodes := t.actionNodes.rdropWhile (cp ≤ ·)

/-- The search for a retryable node on the way up from `cur`; the fuel bounds the way. -/
def retryableFrom (t : TwSolTree F) (d : TwDomain F) : Nat → Int → Int
  | 0, _ => -1
  | fuel + 1, cur =>
    if cur ≤ 0 then -1
    else match t.nodes[cur.toNat]? with
      | none => -1
      | some n =>
        let retryable := match n.kind with
          | .task | .goal => match d.taskMethods.find? n.name with
            | some methods => decide (n.methodIdx + 1 < methods.length)
            | none => false
          | _ => false
        if retryable then cur else retryableFrom t d fuel n.parent

/-- `nearest_retryable_ancestor`. A parent stands before its children, so the way up has at most as many nodes
    as the tree. -/
def nearestRetryableAncestor (t : TwSolTree F) (d : TwDomain F) (nodeId : Nat) : Int :=
  match t.nodes[nodeId]? with
  | none => -1
  | some n => retryableFrom t d t.nodes.length n.parent

def prefixLength (t : TwSolTree F) (nodeId : Nat) : Nat :=
  match t.nodes[nodeId]? with
  | none => 0
  | some n => n.firstStep.toNat

end TwSolTree

abbrev TwMethodSkip := OrderedMap String (List Int)

variable {F : Type} [Cxx F]

/-- Method `m` is skipped for a task or goal of this name and these arguments. -/
def TwMethodSkip.skips (skip : TwMethodSkip) (name : String) (args : List (TwValue F)) (m : Nat) : Bool :=
  ((skip.find? (twCallKey ⟨name, args⟩)).getD []).contains (m : Int)

/-- What a tree search carries along. -/
structure TwTreeMemo (F : Type) where
  tree : TwSolTree F
  failCache : Option (List TwMemoKey)

namespace TwTreeMemo

def cacheKey (memo : TwTreeMemo F) (s : TwState F) (tasks : List (TwTask F)) : TwMemoKey :=
  if memo.failCache.isSome then twSearchKey s tasks else 0

def markFail (memo : TwTreeMemo F) (key : TwMemoKey) : TwTreeMemo F :=
  if key = 0 then memo else { memo with failCache := memo.failCache.map (key :: ·) }

/-- The node of a goal or a task decomposed by method `m`; its first step is the next action. -/
def addMethod (memo : TwTreeMemo F) (kind : TwSolKind) (parent : Int) (name : String) (args : List (TwValue F))
    (m : Nat) : Nat × TwTreeMemo F :=
  let (node, tree) := memo.tree.addNode ⟨kind, parent, [], name, args, m, -1, memo.tree.actionNodes.length⟩
  (node, { memo with tree := tree })

/-- The node of an action, which is the next step of the plan. -/
def addAction (memo : TwTreeMemo F) (parent : Int) (c : TwCall F) : TwTreeMemo F :=
  let (node, tree) := memo.tree.addNode ⟨.action, parent, [], c.name, c.args, -1, memo.tree.actionNodes.length, -1⟩
  { memo with tree := { tree with actionNodes := tree.actionNodes ++ [node] } }

def restore (memo : TwTreeMemo F) (cp : Nat) : TwTreeMemo F := { memo with tree := memo.tree.restore cp }

end TwTreeMemo

abbrev SeekTree (F : Type) := Except Thrown (Option (List (TwCall F)) × TwTreeMemo F)

section Loops
variable (d : TwDomain F) (bl : TwBlacklist) (skip : TwMethodSkip) (s : TwState F) (parent : Int)
variable (seek : List (TwTask F) → Int → TwTreeMemo F → SeekTree F)

/-- The loop over the methods of a goal or a task, from method `m` on. -/
def tryTreeMethods (kind : TwSolKind) (name : String) (args : List (TwValue F))
    (extend : List (TwTask F) → List (TwTask F)) :
    Nat → List (TwMethodFn F) → List UInt64 → TwTreeMemo F → SeekTree F
  | _, [], _, memo => .ok (none, memo)
  | m, method :: methods, seen, memo =>
    if skip.skips name args m then tryTreeMethods kind name args extend (m + 1) methods seen memo
    else match method s args with
      | none => tryTreeMethods kind name args extend (m + 1) methods seen memo
      | some subs =>
        let cp := memo.tree.checkpoint
        let (node, grown) := memo.addMethod kind parent name args m
        let newTasks := extend subs
        let sig := twTasksHash newTasks
        if seen.contains sig then
          tryTreeMethods kind name args extend (m + 1) methods seen (grown.restore cp)
        else match twPrefixPlausible d bl s 2 newTasks with
          | .error e => .error e
          | .ok false => tryTreeMethods kind name args extend (m + 1) methods (sig :: seen) (grown.restore cp)
          | .ok true =>
            match seek newTasks node grown with
            | .error e => .error e
            | .ok (some plan, memo) => .ok (some plan, memo)
            | .ok (none, memo) =>
              tryTreeMethods kind name args extend (m + 1) methods (sig :: seen) (memo.restore cp)

/-- The methods of `name`; no entry in the table is a failure. -/
def seekTreeMethods (kind : TwSolKind) (name : String) (args : List (TwValue F))
    (extend : List (TwTask F) → List (TwTask F)) (memo : TwTreeMemo F) : SeekTree F :=
  match d.taskMethods.find? name with
  | none => .ok (none, memo)
  | some methods => tryTreeMethods d bl skip s parent seek kind name args extend 0 methods [] memo

def tryTreeBindings (mg : TwMultiGoal F) (rest : List (TwTask F)) :
    List (TwGoalBinding F) → TwTreeMemo F → SeekTree F
  | [], memo => .ok (none, memo)
  | b :: unmet, memo =>
    match seek (.goal ⟨[b]⟩ :: .multiGoal mg :: rest) parent memo with
    | .error e => .error e
    | .ok (some plan, memo) => .ok (some plan, memo)
    | .ok (none, memo) => tryTreeBindings mg rest unmet memo

end Loops

/-- `return mark_fail()` where a branch found nothing. -/
def SeekTree.orMark (r : SeekTree F) (key : TwMemoKey) : SeekTree F :=
  match r with
  | .ok (none, memo) => .ok (none, memo.markFail key)
  | r => r

/-- The body of `tw_seek_plan_tree` behind its fuel check; `seek` is the recursive call. -/
def treeStep (d : TwDomain F) (bl : TwBlacklist) (skip : TwMethodSkip)
    (seek : TwState F → List (TwTask F) → Int → TwTreeMemo F → SeekTree F)
    (s : TwState F) (tasks : List (TwTask F)) (parent : Int) (memo : TwTreeMemo F) : SeekTree F :=
  match tasks with
  | [] => .ok (some [], memo)
  | t :: rest =>
    let key := memo.cacheKey s tasks
    if (memo.failCache.getD []).contains key then .ok (none, memo)
    else match t with
      | .goal g =>
        match g.isSatisfied s with
        | .error e => .error e
        -- A satisfied goal hands the answer for the rest on, without a mark of its own.
        | .ok true => seek s rest parent memo
        | .ok false =>
          match g.unsatisfied s with
          | .error e => .error e
          | .ok [] => .ok (none, memo)
          | .ok (b :: _) =>
            (seekTreeMethods d bl skip s parent (seek s) .goal b.var [.string b.key, b.desired]
              (fun subs => subs ++ .goal g :: rest) memo).orMark key
      | .multiGoal mg =>
        match mg.isSatisfied s with
        | .error e => .error e
        | .ok true => seek s rest parent memo
        | .ok false =>
          match mg.unsatisfied s with
          | .error e => .error e
          | .ok unmet => (tryTreeBindings parent (seek s) mg rest unmet memo).orMark key
      | .call c =>
        match d.actions.find? c.name with
        | some act =>
          if blacklisted bl c then .ok (none, memo.markFail key)
          else match act s c.args with
            | none => .ok (none, memo.markFail key)
            | some s' =>
              let cp := memo.tree.checkpoint
              match seek s' rest parent (memo.addAction parent c) with
              | .error e => .error e
              | .ok (none, memo) => .ok (none, (memo.restore cp).markFail key)
              | .ok (some sub, memo) => .ok (some (c :: sub), memo)
        | none =>
          (seekTreeMethods d bl skip s parent (seek s) .task c.name c.args (fun subs => subs ++ rest) memo).orMark key

/-- `tw_seek_plan_tree`. A negative fuel behaves as 0. -/
def twSeekPlanTree (d : TwDomain F) (bl : TwBlacklist) (skip : TwMethodSkip) :
    Nat → TwState F → List (TwTask F) → Int → TwTreeMemo F → SeekTree F
  | 0 => fun _ _ _ memo => .ok (none, memo)
  | fuel + 1 => treeStep d bl skip (twSeekPlanTree d bl skip fuel)

def twPlanWithTree (s : TwState F) (tasks : List (TwTask F)) (d : TwDomain F) (bl : TwBlacklist)
    (skip : TwMethodSkip) : Except Thrown (Option (List (TwCall F)) × TwSolTree F) :=
  (twSeekPlanTree d bl skip twMaxDepth s tasks 0 ⟨.rooted, some []⟩).map fun r => (r.1, r.2.tree)

end WeftWarp
