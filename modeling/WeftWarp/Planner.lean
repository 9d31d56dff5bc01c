import WeftWarp.Domain

/-! # The planner

`tw_seek_plan` of `tw_planner.hpp` with its memo keys, its three caches, the plausibility probe and the witness
oracle. A null cache pointer is `none`. The wall-clock budget is left out: it does not fire. -/

namespace WeftWarp

open TwJson (Thrown)

variable {F : Type} [Cxx F]

/-! ### Keys -/

def twCallKey (c : TwCall F) : String := c.args.foldl (fun key a => key ++ "\x1f" ++ a.toText) c.name

/-- `TwBlacklist`; a null pointer is the empty set. -/
abbrev TwBlacklist := List String

/-- `blacklist && blacklist->count(tw_call_key(call))`. -/
def blacklisted (bl : TwBlacklist) (c : TwCall F) : Bool := bl.contains (twCallKey c)

def twGoalBindingHash (b : TwGoalBinding F) : UInt64 :=
  let h := twMixHash 1469598103934665603 (Cxx.hashString F b.var)
  let h := twMixHash h (Cxx.hashString F b.key)
  twMixHash h b.desired.stableHash

def twTaskHash : TwTask F → UInt64
  | .call c =>
    c.args.foldl (fun h a => twMixHash h a.stableHash) (twMixHash 0x43554c4c (Cxx.hashString F c.name))
  | .goal g => g.bindings.foldl (fun h b => twMixHash h (twGoalBindingHash b)) 0x474f414c
  | .multiGoal mg => mg.bindings.foldl (fun h b => twMixHash h (twGoalBindingHash b)) 0x4d554c54

def twTasksHash (tasks : List (TwTask F)) : UInt64 :=
  tasks.foldl (fun h t => twMixHash h (twTaskHash t)) 0x5441534b

abbrev TwMemoKey := UInt64

def twSearchKey (s : TwState F) (tasks : List (TwTask F)) : TwMemoKey :=
  twMixHash s.signatureHash (twTasksHash tasks)

def twMethodCallHash (name : String) (args : List (TwValue F)) : UInt64 :=
  args.foldl (fun h a => twMixHash h a.stableHash) (twMixHash 0x4d455448 (Cxx.hashString F name))

/-! ### Method statistics -/

abbrev TwMethodStats := OrderedMap UInt64 (List Int)

/-- `scores.resize(n, 0)` where the vector is shorter. -/
def growScores (scores : List Int) (n : Nat) : List Int := scores ++ List.replicate (n - scores.length) 0

/-- The loop of `tw_order_methods`: the first method of the highest score. -/
def bestMethod (scores : List Int) (count : Nat) : Nat × Int :=
  (List.range' 1 (count - 1)).foldl
    (fun best i => if best.2 < scores.getD i 0 then (i, scores.getD i 0) else best) (0, scores.getD 0 0)

/-- `tw_order_methods`. It enters the key into the statistics. -/
def twOrderMethods (key : UInt64) (count : Nat) (stats : Option TwMethodStats) :
    List Nat × Option TwMethodStats :=
  match stats with
  | none => (List.range count, none)
  | some st =>
    if count ≤ 1 then (List.range count, some st)
    else
      let scores := growScores ((st.find? key).getD []) count
      let best := bestMethod scores count
      let order := if 0 < best.2 ∧ best.1 ≠ 0 then ((List.range count).set 0 best.1).set best.1 0 else List.range count
      (order, some (st.set key scores))

def twNoteMethodResult (key : UInt64) (methodIdx : Nat) (success : Bool) (stats : Option TwMethodStats) :
    Option TwMethodStats :=
  stats.map fun st =>
    let scores := growScores ((st.find? key).getD []) (methodIdx + 1)
    let delta : Int := if success then 2 else -1
    st.set key (scores.set methodIdx (max (-64) (min 64 (scores.getD methodIdx 0 + delta))))

/-! ### Plausibility probe -/

/-- The probe of a goal or a multigoal: some unmet binding names a method. -/
def bindingsPlausible (d : TwDomain F) (s : TwState F) (bs : List (TwGoalBinding F)) : Except Thrown Bool :=
  match bindingsSatisfied s bs with
  | .error e => .error e
  | .ok true => .ok true
  | .ok false => (bindingsUnsatisfied s bs).map fun unmet => unmet.any fun b => d.hasTask b.var

def twTaskShallowPlausible (d : TwDomain F) (bl : TwBlacklist) (s : TwState F) : TwTask F → Except Thrown Bool
  | .call c => if d.hasAction c.name then .ok (!blacklisted bl c) else .ok (d.hasTask c.name)
  | .goal g => bindingsPlausible d s g.bindings
  | .multiGoal mg => bindingsPlausible d s mg.bindings

/-- `tw_prefix_plausible`; every caller leaves `probe` at 2. -/
def twPrefixPlausible (d : TwDomain F) (bl : TwBlacklist) (s : TwState F) (probe : Nat) (tasks : List (TwTask F)) :
    Except Thrown Bool :=
  match probe, tasks with
  | 0, _ | _, [] => .ok true
  | probe + 1, t :: tasks =>
    match twTaskShallowPlausible d bl s t with
    | .error e => .error e
    | .ok false => .ok false
    | .ok true => twPrefixPlausible d bl s probe tasks

/-! ### Witness oracle -/

structure TwWitnessResult where
  found : Bool
  certified : Int
  skipped : Int
  deriving DecidableEq

def witnessResult (certified skipped : Int) : TwWitnessResult :=
  ⟨0 < certified || skipped == 0, certified, skipped⟩

/-- `task_methods.find(name)` finds a list with a method. -/
def hasMethod (d : TwDomain F) (name : String) : Bool := !((d.taskMethods.find? name).getD []).isEmpty

/-- What a call adds to `certified` and `skipped`. -/
def callWitness (d : TwDomain F) (c : TwCall F) : Int × Int :=
  if d.hasAction c.name then (0, 0) else if hasMethod d c.name then (1, 0) else (0, 1)

/-- What a goal adds: its first unmet binding decides. -/
def goalWitness (d : TwDomain F) (s : TwState F) (g : TwGoal F) : Except Thrown (Int × Int) :=
  match g.isSatisfied s with
  | .error e => .error e
  | .ok true => .ok (0, 0)
  | .ok false =>
    (g.unsatisfied s).map fun
      | [] => (0, 0)
      | b :: _ => if hasMethod d b.var then (1, 0) else (0, 1)

/-- What a task adds. An unsatisfied multigoal adds to neither count. -/
def taskWitness (d : TwDomain F) (s : TwState F) : TwTask F → Except Thrown (Int × Int)
  | .call c => .ok (callWitness d c)
  | .goal g => goalWitness d s g
  | .multiGoal mg => (mg.isSatisfied s).map fun _ => (0, 0)

/-- The loop of the oracle over a list of tasks, from the counts so far. -/
def scanTasks (d : TwDomain F) (s : TwState F) : Int × Int → List (TwTask F) → Except Thrown (Int × Int)
  | n, [] => .ok n
  | n, t :: ts =>
    match taskWitness d s t with
    | .error e => .error e
    | .ok w => scanTasks d s (n.1 + w.1, n.2 + w.2) ts

def twWitnessOracleGoalReach (s : TwState F) (tasks : List (TwTask F)) (d : TwDomain F) :
    Except Thrown TwWitnessResult :=
  (scanTasks d s (0, 0) tasks).map fun n => witnessResult n.1 n.2

structure TwWitnessScanCache where
  certifiedPrefix : List Int
  skippedPrefix : List Int
  goalIndices : List Nat

/-- One round of the loop of `tw_build_witness_scan_cache`. -/
def TwWitnessScanCache.push (d : TwDomain F) (cache : TwWitnessScanCache) (task : TwTask F × Nat) :
    TwWitnessScanCache :=
  let (w, goals) := match task.1 with
    | .call c => (callWitness d c, cache.goalIndices)
    | _ => ((0, 0), cache.goalIndices ++ [task.2])
  { certifiedPrefix := cache.certifiedPrefix ++ [cache.certifiedPrefix.getLastD 0 + w.1]
    skippedPrefix := cache.skippedPrefix ++ [cache.skippedPrefix.getLastD 0 + w.2]
    goalIndices := goals }

def twBuildWitnessScanCache (tasks : List (TwTask F)) (d : TwDomain F) : TwWitnessScanCache :=
  tasks.zipIdx.foldl (TwWitnessScanCache.push d) ⟨[0], [0], []⟩

/-- `tw_witness_oracle_goal_reach_cached`: prefix sums for the calls, a scan for the goals. -/
def twWitnessOracleGoalReachCached (s : TwState F) (tasks : List (TwTask F)) (d : TwDomain F)
    (cache : TwWitnessScanCache) (fromIdx : Nat) : Except Thrown TwWitnessResult :=
  let certified := cache.certifiedPrefix.getLastD 0 - cache.certifiedPrefix.getD fromIdx 0
  let skipped := cache.skippedPrefix.getLastD 0 - cache.skippedPrefix.getD fromIdx 0
  let goals := (cache.goalIndices.filter (fromIdx ≤ ·)).filterMap (tasks[·]?)
  (scanTasks d s (certified, skipped) goals).map fun n => witnessResult n.1 n.2

/-! ### Caches -/

/-- The caches of one planner invocation. -/
structure TwMemo (F : Type) where
  failCache : Option (List TwMemoKey)
  successCache : Option (OrderedMap TwMemoKey (List (TwCall F)))
  methodStats : Option TwMethodStats

namespace TwMemo

def fresh : TwMemo F := ⟨some [], some .empty, some .empty⟩

def absent : TwMemo F := ⟨none, none, none⟩

/-- `cache_key`: 0 where no cache asks for it. -/
def cacheKey (memo : TwMemo F) (s : TwState F) (tasks : List (TwTask F)) : TwMemoKey :=
  if memo.failCache.isSome || memo.successCache.isSome then twSearchKey s tasks else 0

def lookup (memo : TwMemo F) (key : TwMemoKey) : Option (Option (List (TwCall F))) :=
  if (memo.failCache.getD []).contains key then some none
  else (memo.successCache.bind (·.find? key)).map some

def markFail (memo : TwMemo F) (key : TwMemoKey) : TwMemo F :=
  if key = 0 then memo else { memo with failCache := memo.failCache.map (key :: ·) }

def markSuccess (memo : TwMemo F) (key : TwMemoKey) (plan : List (TwCall F)) : TwMemo F :=
  if key = 0 then memo else { memo with successCache := memo.successCache.map (·.set key plan) }

def note (memo : TwMemo F) (key : UInt64) (methodIdx : Nat) (success : Bool) : TwMemo F :=
  { memo with methodStats := twNoteMethodResult key methodIdx success memo.methodStats }

end TwMemo

/-! ### Search -/

abbrev Seek (F : Type) := Except Thrown (Option (List (TwCall F)) × TwMemo F)

/-- Where the fast path ends: at the end of the list, at a failure, or before a task that needs a decision. -/
inductive Walk (F : Type) where
  | done (plan : List (TwCall F))
  | dead
  | branch (plan : List (TwCall F)) (s : TwState F) (t : TwTask F) (rest : List (TwTask F))

section Walk
variable (d : TwDomain F) (bl : TwBlacklist) (tasks : List (TwTask F)) (cache : TwWitnessScanCache)

/-- The fast path of `tw_seek_plan` from index `idx` on, where `rest` is what is left of `tasks`. -/
def walk : Nat → TwState F → List (TwCall F) → List (TwTask F) → Except Thrown (Walk F)
  | _, _, plan, [] => .ok (.done plan)
  | idx, s, plan, t :: rest =>
    match twWitnessOracleGoalReachCached s tasks d cache idx with
    | .error e => .error e
    | .ok wr =>
      if !wr.found then .ok .dead
      else match t with
        | .goal g =>
          match g.isSatisfied s with
          | .error e => .error e
          | .ok true => walk (idx + 1) s plan rest
          | .ok false => .ok (.branch plan s t rest)
        | .multiGoal mg =>
          match mg.isSatisfied s with
          | .error e => .error e
          | .ok true => walk (idx + 1) s plan rest
          | .ok false => .ok (.branch plan s t rest)
        | .call c =>
          match d.actions.find? c.name with
          | none => .ok (.branch plan s t rest)
          | some act =>
            if blacklisted bl c then .ok .dead
            else match act s c.args with
              | none => .ok .dead
              | some s' => walk (idx + 1) s' (plan ++ [c]) rest

end Walk

section Loops
variable (d : TwDomain F) (bl : TwBlacklist) (s : TwState F)
variable (seek : List (TwTask F) → TwMemo F → Seek F)

/-- The loop over the methods of a goal or a task: `order` is what is left of it, `seen` the signatures of the
    decompositions met, `extend` puts the subtasks before what stays on the list. -/
def tryMethods (methods : List (TwMethodFn F)) (args : List (TwValue F)) (key : UInt64)
    (extend : List (TwTask F) → List (TwTask F)) : List Nat → List UInt64 → TwMemo F → Seek F
  | [], _, memo => .ok (none, memo)
  | midx :: order, seen, memo =>
    match methods[midx]? >>= fun method => method s args with
    | none => tryMethods methods args key extend order seen memo
    | some subs =>
      let newTasks := extend subs
      let sig := twTasksHash newTasks
      if seen.contains sig then tryMethods methods args key extend order seen memo
      else match twPrefixPlausible d bl s 2 newTasks with
        | .error e => .error e
        | .ok false => tryMethods methods args key extend order (sig :: seen) memo
        | .ok true =>
          match seek newTasks memo with
          | .error e => .error e
          | .ok (some plan, memo) => .ok (some plan, memo.note key midx true)
          | .ok (none, memo) => tryMethods methods args key extend order (sig :: seen) (memo.note key midx false)

/-- The methods of `name` in the order of `tw_order_methods`; no entry in the table is a failure. -/
def seekMethods (name : String) (args : List (TwValue F)) (extend : List (TwTask F) → List (TwTask F))
    (memo : TwMemo F) : Seek F :=
  match d.taskMethods.find? name with
  | none => .ok (none, memo)
  | some methods =>
    let key := twMethodCallHash name args
    let (order, stats) := twOrderMethods key methods.length memo.methodStats
    tryMethods d bl s seek methods args key extend order [] { memo with methodStats := stats }

def tryBindings (mg : TwMultiGoal F) (rest : List (TwTask F)) : List (TwGoalBinding F) → TwMemo F → Seek F
  | [], memo => .ok (none, memo)
  | b :: unmet, memo =>
    match seek (.goal ⟨[b]⟩ :: .multiGoal mg :: rest) memo with
    | .error e => .error e
    | .ok (some plan, memo) => .ok (some plan, memo)
    | .ok (none, memo) => tryBindings mg rest unmet memo

/-- The branching search at a task that needs a decision. -/
def seekBranch (t : TwTask F) (rest : List (TwTask F)) (memo : TwMemo F) : Seek F :=
  match t with
  | .goal g =>
    match g.unsatisfied s with
    | .error e => .error e
    | .ok [] => .ok (none, memo)
    | .ok (b :: _) =>
      seekMethods d bl s seek b.var [.string b.key, b.desired] (fun subs => subs ++ .goal g :: rest) memo
  | .multiGoal mg =>
    match mg.unsatisfied s with
    | .error e => .error e
    | .ok unmet => tryBindings seek mg rest unmet memo
  | .call c => seekMethods d bl s seek c.name c.args (fun subs => subs ++ rest) memo

end Loops

/-- The body of `tw_seek_plan`; `seek` is the recursive call, none when the fuel is used up. -/
def seekStep (d : TwDomain F) (bl : TwBlacklist)
    (seek : Option (TwState F → List (TwTask F) → TwMemo F → Seek F))
    (s : TwState F) (tasks : List (TwTask F)) (memo : TwMemo F) : Seek F :=
  if tasks.isEmpty then .ok (some [], memo)
  else
    let key := memo.cacheKey s tasks
    match memo.lookup key with
    | some answer => .ok (answer, memo)
    | none =>
      match walk d bl tasks (twBuildWitnessScanCache tasks d) 0 s [] tasks with
      | .error e => .error e
      | .ok (.done plan) => .ok (some plan, memo.markSuccess key plan)
      | .ok .dead => .ok (none, memo.markFail key)
      | .ok (.branch plan s t rest) =>
        match seek with
        | none => .ok (none, memo.markFail key)
        | some seek =>
          match seekBranch d bl s (seek s) t rest memo with
          | .error e => .error e
          | .ok (none, memo) => .ok (none, memo.markFail key)
          | .ok (some sub, memo) => .ok (some (plan ++ sub), memo.markSuccess key (plan ++ sub))

/-- `tw_seek_plan`. A negative fuel behaves as 0. -/
def twSeekPlan (d : TwDomain F) (bl : TwBlacklist) : Nat → TwState F → List (TwTask F) → TwMemo F → Seek F
  | 0 => seekStep d bl none
  | fuel + 1 => seekStep d bl (some (twSeekPlan d bl fuel))

def twMaxDepth : Nat := 400

def twPlan (s : TwState F) (tasks : List (TwTask F)) (d : TwDomain F) (bl : TwBlacklist) :
    Except Thrown (Option (List (TwCall F))) :=
  (twSeekPlan d bl twMaxDepth s tasks .fresh).map Prod.fst

end WeftWarp
