import Mathlib.Algebra.BigOperators.Group.List.Basic
import Mathlib.Algebra.Group.Prod
import Mathlib.Algebra.Ring.Int.Defs
import Mathlib.Data.List.Induction
import WeftWarp.Planner

/-! # The cached witness scan

The scan cache keeps prefix sums for the calls and the places of the goals. A query at index `i` gives what the full
scan of `tasks.drop i` gives, exceptions included. -/

namespace WeftWarp

variable {F : Type} [Cxx F]

omit [Cxx F] in
/-- What a task adds to the counts whatever the state is. -/
def staticWitness (d : TwDomain F) : TwTask F → Int × Int
  | .call c => callWitness d c
  | _ => (0, 0)

/-- A goal or a multigoal. -/
def isGoalTask : TwTask F → Bool
  | .call _ => false
  | _ => true

/-- The sums of the static counts. -/
def staticCounts (d : TwDomain F) (tasks : List (TwTask F)) : Int × Int :=
  ((tasks.map fun t => (staticWitness d t).1).sum, (tasks.map fun t => (staticWitness d t).2).sum)

omit [Cxx F] in
@[simp] theorem staticCounts_nil (d : TwDomain F) : staticCounts d [] = (0, 0) := rfl

omit [Cxx F] in
theorem staticCounts_append (d : TwDomain F) (ts us : List (TwTask F)) :
    staticCounts d (ts ++ us) = staticCounts d ts + staticCounts d us := by
  simp [staticCounts]

/-! ### What the cache holds -/

omit [Cxx F] in
theorem buildCache_concat (d : TwDomain F) (ts : List (TwTask F)) (t : TwTask F) :
    twBuildWitnessScanCache (ts ++ [t]) d = (twBuildWitnessScanCache ts d).push d (t, ts.length) := by
  simp [twBuildWitnessScanCache, List.zipIdx_append]

omit [Cxx F] in
theorem push_eq (d : TwDomain F) (cache : TwWitnessScanCache) (t : TwTask F) (i : Nat) :
    cache.push d (t, i) =
      { certifiedPrefix := cache.certifiedPrefix ++ [cache.certifiedPrefix.getLastD 0 + (staticWitness d t).1]
        skippedPrefix := cache.skippedPrefix ++ [cache.skippedPrefix.getLastD 0 + (staticWitness d t).2]
        goalIndices := cache.goalIndices ++ if isGoalTask t then [i] else [] } := by
  cases t <;> simp [TwWitnessScanCache.push, staticWitness, isGoalTask]

omit [Cxx F] in
theorem buildCache_sums (d : TwDomain F) (tasks : List (TwTask F)) :
    (twBuildWitnessScanCache tasks d).certifiedPrefix =
      (List.range (tasks.length + 1)).map (fun i => (staticCounts d (tasks.take i)).1) ∧
    (twBuildWitnessScanCache tasks d).skippedPrefix =
      (List.range (tasks.length + 1)).map (fun i => (staticCounts d (tasks.take i)).2) := by
  induction tasks using List.reverseRecOn with
  | nil => exact ⟨rfl, rfl⟩
  | append_singleton ts t ih =>
    have hlast (f : List (TwTask F) → Int) :
        ((List.range (ts.length + 1)).map fun i => f (ts.take i)).getLastD 0 = f ts := by
      simp [List.range_succ]
    have hsnoc (f : List (TwTask F) → Int) :
        ((List.range ((ts ++ [t]).length + 1)).map fun i => f ((ts ++ [t]).take i)) =
          ((List.range (ts.length + 1)).map fun i => f (ts.take i)) ++ [f (ts ++ [t])] := by
      rw [List.length_append, List.length_singleton, List.range_succ, List.map_append]
      congr 1
      · refine List.map_congr_left fun i hi => ?_
        rw [List.take_append_of_le_length (by simpa [Nat.lt_succ_iff] using hi)]
      · rw [List.map_singleton, List.take_of_length_le (by simp)]
    rw [buildCache_concat, push_eq, ih.1, ih.2, hlast fun l => (staticCounts d l).1,
      hlast fun l => (staticCounts d l).2, hsnoc fun l => (staticCounts d l).1,
      hsnoc fun l => (staticCounts d l).2]
    simp [staticCounts]

omit [Cxx F] in
theorem buildCache_goalIndices_lt (d : TwDomain F) (tasks : List (TwTask F)) :
    ∀ j ∈ (twBuildWitnessScanCache tasks d).goalIndices, j < tasks.length := by
  induction tasks using List.reverseRecOn with
  | nil => simp [twBuildWitnessScanCache]
  | append_singleton ts t ih =>
    rw [buildCache_concat, push_eq]
    intro j hj
    rw [List.length_append, List.length_singleton, Nat.lt_succ_iff]
    rcases List.mem_append.mp hj with hj | hj
    · exact (ih j hj).le
    · split at hj
      · exact (List.mem_singleton.mp hj).le
      · cases hj

omit [Cxx F] in
/-- The goals that a query at `i` visits are the goals behind `i`. -/
theorem buildCache_goals (d : TwDomain F) (tasks : List (TwTask F)) (i : Nat) :
    ((twBuildWitnessScanCache tasks d).goalIndices.filter (i ≤ ·)).filterMap (tasks[·]?) =
      (tasks.drop i).filter isGoalTask := by
  induction tasks using List.reverseRecOn with
  | nil => simp
  | append_singleton ts t ih =>
    have hold : ((twBuildWitnessScanCache ts d).goalIndices.filter (i ≤ ·)).filterMap ((ts ++ [t])[·]?) =
        ((twBuildWitnessScanCache ts d).goalIndices.filter (i ≤ ·)).filterMap (ts[·]?) :=
      List.filterMap_congr fun j hj => List.getElem?_append_left (buildCache_goalIndices_lt d ts j (List.mem_of_mem_filter hj))
    rw [buildCache_concat, push_eq, List.filter_append, List.filterMap_append, hold, ih]
    by_cases hi : i ≤ ts.length
    · rw [List.drop_append_of_le_length hi, List.filter_append]
      cases h : isGoalTask t <;> simp [h, hi]
    · rw [List.drop_eq_nil_of_le (by omega), List.drop_eq_nil_of_le (by simp; omega)]
      cases h : isGoalTask t <;> simp [hi]

/-! ### The scan -/

/-- The counts of the calls can be added before the goals are visited. -/
theorem scanTasks_eq (d : TwDomain F) (s : TwState F) : ∀ (n : Int × Int) (ts : List (TwTask F)),
    scanTasks d s n ts = scanTasks d s (n + staticCounts d ts) (ts.filter isGoalTask)
  | n, [] => by rw [staticCounts_nil, ← Prod.zero_eq_mk, add_zero, List.filter_nil]
  | n, t :: ts => by
    have hcons : staticCounts d (t :: ts) = staticWitness d t + staticCounts d ts := rfl
    rw [hcons, scanTasks]
    cases ht : isGoalTask t with
    | false =>
      obtain ⟨c, rfl⟩ : ∃ c, t = .call c := by cases t <;> simp_all [isGoalTask]
      rw [List.filter_cons_of_neg (by simp [ht]), ← add_assoc]
      exact scanTasks_eq d s _ ts
    | true =>
      have hzero : staticWitness d t = 0 := by cases t <;> simp_all [isGoalTask, staticWitness]
      rw [hzero, zero_add, List.filter_cons_of_pos ht, scanTasks]
      cases taskWitness d s t with
      | error e => rfl
      | ok w =>
        have hcomm : (n + w) + staticCounts d ts = (n + staticCounts d ts) + w := add_right_comm _ _ _
        exact (scanTasks_eq d s _ ts).trans (congrArg (scanTasks d s · _) hcomm)

theorem oracle_counts (d : TwDomain F) (s : TwState F) (ts : List (TwTask F)) :
    twWitnessOracleGoalReach s ts d =
      (scanTasks d s (staticCounts d ts) (ts.filter isGoalTask)).map fun n => witnessResult n.1 n.2 := by
  rw [twWitnessOracleGoalReach, scanTasks_eq, ← Prod.zero_eq_mk, zero_add]

theorem oracleCached_counts (d : TwDomain F) (s : TwState F) {tasks : List (TwTask F)} {i : Nat}
    (hi : i ≤ tasks.length) :
    twWitnessOracleGoalReachCached s tasks d (twBuildWitnessScanCache tasks d) i =
      (scanTasks d s (staticCounts d (tasks.drop i)) ((tasks.drop i).filter isGoalTask)).map fun n =>
        witnessResult n.1 n.2 := by
  have hsplit := staticCounts_append d (tasks.take i) (tasks.drop i)
  rw [List.take_append_drop] at hsplit
  have hget (f : List (TwTask F) → Int) :
      ((List.range (tasks.length + 1)).map fun j => f (tasks.take j)).getLastD 0 = f tasks ∧
        ((List.range (tasks.length + 1)).map fun j => f (tasks.take j)).getD i 0 = f (tasks.take i) := by
    constructor
    · simp [List.range_succ]
    · simp [List.getD_eq_getElem?_getD, List.getElem?_range (Nat.lt_succ_of_le hi)]
  rw [twWitnessOracleGoalReachCached, buildCache_goals, (buildCache_sums d tasks).1, (buildCache_sums d tasks).2]
  simp only [(hget fun l => (staticCounts d l).1).1, (hget fun l => (staticCounts d l).1).2,
    (hget fun l => (staticCounts d l).2).1, (hget fun l => (staticCounts d l).2).2, hsplit, Prod.fst_add,
    Prod.snd_add, add_sub_cancel_left]

/-- A query at any index up to the length answers as the full scan of the tasks behind it, exceptions included. -/
theorem cachedScan_eq_fullScan (d : TwDomain F) (tasks : List (TwTask F)) (s : TwState F)
    (fromIdx : Fin (tasks.length + 1)) :
    twWitnessOracleGoalReachCached s tasks d (twBuildWitnessScanCache tasks d) fromIdx =
      twWitnessOracleGoalReach s (tasks.drop fromIdx) d := by
  rw [oracleCached_counts d s (Nat.le_of_lt_succ fromIdx.isLt), oracle_counts]

/-- A query before a task answers as the full scan from that task on. -/
theorem oracleCached_of_drop (d : TwDomain F) (s : TwState F) {tasks rest : List (TwTask F)} {t : TwTask F} {i : Nat}
    (h : tasks.drop i = t :: rest) :
    twWitnessOracleGoalReachCached s tasks d (twBuildWitnessScanCache tasks d) i =
      twWitnessOracleGoalReach s (t :: rest) d := by
  have inside : i ≤ tasks.length := by
    by_contra beyond
    rw [List.drop_eq_nil_of_le (by omega)] at h
    cases h
  rw [oracleCached_counts d s inside, h, oracle_counts]

end WeftWarp
