import WeftWarp.Shared

/-! # What a call writes to

The planner and the replanner write to the state that they are given, whose hash they memoise, and to states that they
have allocated themselves. -/

namespace WeftWarp
namespace Shared

open Heap
open TwJson (Thrown)
open TwLoader (Params)

section Cells
variable {F : Type} [Cxx F] {own : Ref → Prop} {p : Ref}

theorem load_keeps (p : Ref) : Keeps own (load p : HeapM F (Cell F)) fun _ => True :=
  fun h _ => ⟨fun _ _ => rfl, Nat.le_refl h.length, trivial⟩

theorem deref_keeps (p : Ref) : Keeps own (deref p : HeapM F (TwState F)) fun _ => True :=
  (load_keeps p).bind fun _ _ => .pure trivial

theorem alloc_keeps (c : Cell F) : Keeps own (alloc c) own := by
  intro h fresh
  refine ⟨fun q foreign => ?_, ?_, fresh h.length (Nat.le_refl _)⟩
  · have inside : q < h.length := by
      by_contra beyond
      exact foreign (fresh q (Nat.le_of_not_lt beyond))
    exact List.getElem?_append_left inside
  · change h.length ≤ (h ++ [c]).length
    rw [List.length_append]
    exact Nat.le_add_right h.length 1

theorem store_keeps (mine : own p) (c : Cell F) : Keeps own (store p c) fun _ => True := by
  intro h _
  refine ⟨fun q foreign => ?_, ?_, trivial⟩
  · have other : p ≠ q := by
      rintro rfl
      exact foreign mine
    exact List.getElem?_set_ne other
  · exact Nat.le_of_eq (List.length_set ..).symm

theorem copy_keeps (p : Ref) : Keeps own (copy p : HeapM F Ref) own :=
  (load_keeps p).bind fun c _ => alloc_keeps c

theorem signatureHash_keeps (mine : own p) : Keeps own (signatureHash p : HeapM F UInt64) fun _ => True := by
  refine (load_keeps p).bind fun c _ => ?_
  cases c.sigHash with
  | some hash => exact .pure trivial
  | none => exact (store_keeps mine _).bind fun _ _ => .pure trivial

theorem setNested_keeps (mine : own p) (var : String) (key val : TwValue F) :
    Keeps own (setNested p var key val) fun _ => True :=
  (deref_keeps p).bind fun _ _ => store_keeps mine _

end Cells

variable {F : Type} [CxxMath F] {own : Ref → Prop} {p : Ref}

/-! ### Actions -/

theorem runStep_keeps (mine : own p) (params : Params F) (step : TwValue F) :
    Keeps own (runStep params p step) fun _ => True := by
  rw [runStep]
  cases step.asDict.lookup "eval" with
  | some expr => exact (deref_keeps p).bind fun _ _ => .pure trivial
  | none =>
    cases step.asDict.lookup "pointer/set" with
    | none => exact .pure trivial
    | some ptr =>
      dsimp only
      split
      · exact .pure trivial
      · cases step.asDict.lookup "value" with
        | none => exact .pure trivial
        | some expr =>
          exact (deref_keeps p).bind fun _ _ => (setNested_keeps mine _ _ _).bind fun _ _ => .pure trivial

theorem runBody_keeps (mine : own p) (params : Params F) (body : List (TwValue F)) :
    Keeps own (runBody params p body) fun _ => True := by
  induction body with
  | nil => exact .pure trivial
  | cons step body ih =>
    refine (runStep_keeps mine params step).bind fun goes _ => ?_
    cases goes with
    | false => exact .pure trivial
    | true => exact ih

theorem buildAction_keeps (d : Dict F) (state : Ref) (args : List (TwValue F)) :
    Keeps own (buildAction d state args) fun next => ∀ q, next = some q → own q := by
  refine (deref_keeps state).bind fun s _ => ?_
  refine (copy_keeps state).bind fun newState mine => ?_
  refine (runBody_keeps mine _ _).bind fun goes _ => ?_
  cases goes with
  | false => exact .pure nofun
  | true =>
    refine .pure fun q same => ?_
    rwa [← Option.some.inj same]

/-! ### Search -/

section Search
variable {d : Domain F} {bl : TwBlacklist}

theorem cacheKey_keeps (mine : own p) (memo : TwMemo F) (tasks : List (TwTask F)) :
    Keeps own (cacheKey memo p tasks) fun _ => True := by
  rw [cacheKey]
  split
  · exact (signatureHash_keeps mine).bind fun _ _ => .pure trivial
  · exact .pure trivial

/-- The state at which the fast path ends. -/
def Walk.At (own : Ref → Prop) : Except Thrown (Walk F) → Prop
  | .ok (.branch _ state _ _) => own state
  | _ => True

theorem walk_keeps (tasks : List (TwTask F)) (cache : TwWitnessScanCache) (rest : List (TwTask F)) (idx : Nat) (mine : own p)
    (plan : List (TwCall F)) : Keeps own (walk d bl tasks cache idx p plan rest) (Walk.At own) := by
  induction rest generalizing idx p plan with
  | nil => exact .pure trivial
  | cons t rest ih =>
    refine (deref_keeps p).bind fun s _ => ?_
    cases twWitnessOracleGoalReachCached s tasks d.view cache idx with
    | error e => exact .pure trivial
    | ok wr =>
      dsimp only
      split
      · exact .pure trivial
      · cases t with
        | goal g =>
          refine (deref_keeps p).bind fun s _ => ?_
          rcases g.isSatisfied s with e | _ | _
          · exact .pure trivial
          · exact .pure mine
          · exact ih (idx + 1) mine plan
        | multiGoal mg =>
          refine (deref_keeps p).bind fun s _ => ?_
          rcases mg.isSatisfied s with e | _ | _
          · exact .pure trivial
          · exact .pure mine
          · exact ih (idx + 1) mine plan
        | call c =>
          dsimp only
          cases d.actions.find? c.name with
          | none => exact .pure mine
          | some act =>
            dsimp only
            split
            · exact .pure trivial
            · refine (copy_keeps p).bind fun q _ => ?_
              refine (buildAction_keeps act q c.args).bind fun next mine' => ?_
              cases next with
              | none => exact .pure trivial
              | some newState => exact ih (idx + 1) (mine' newState rfl) (plan ++ [c])

section Loops
variable {seek : List (TwTask F) → TwMemo F → HeapM F (Seek F)}
  (seeks : ∀ tasks memo, Keeps own (seek tasks memo) fun _ => True)
include seeks

theorem tryMethods_keeps (methods : List (TwMethodFn F)) (args : List (TwValue F)) (key : UInt64)
    (extend : List (TwTask F) → List (TwTask F)) (order : List Nat) (seen : List UInt64) (memo : TwMemo F) :
    Keeps own (tryMethods d bl p seek methods args key extend order seen memo) fun _ => True := by
  induction order generalizing seen memo with
  | nil => exact .pure trivial
  | cons midx order ih =>
    refine (deref_keeps p).bind fun s _ => ?_
    cases methods[midx]? >>= fun method => method s args with
    | none => exact ih seen memo
    | some subs =>
      dsimp only
      split
      · exact ih seen memo
      · rcases twPrefixPlausible d.view bl s 2 (extend subs) with e | _ | _
        · exact .pure trivial
        · exact ih _ memo
        · refine (seeks (extend subs) memo).bind fun out _ => ?_
          rcases out with e | ⟨_ | plan, memo'⟩
          · exact .pure trivial
          · exact ih _ _
          · exact .pure trivial

theorem seekMethods_keeps (name : String) (args : List (TwValue F)) (extend : List (TwTask F) → List (TwTask F))
    (memo : TwMemo F) : Keeps own (seekMethods d bl p seek name args extend memo) fun _ => True := by
  rw [seekMethods]
  cases d.taskMethods.find? name with
  | none => exact .pure trivial
  | some methods => exact tryMethods_keeps seeks methods args _ extend _ _ _

theorem tryBindings_keeps (mg : TwMultiGoal F) (rest : List (TwTask F)) (unmet : List (TwGoalBinding F)) (memo : TwMemo F) :
    Keeps own (tryBindings seek mg rest unmet memo) fun _ => True := by
  induction unmet generalizing memo with
  | nil => exact .pure trivial
  | cons b unmet ih =>
    refine (seeks _ memo).bind fun out _ => ?_
    rcases out with e | ⟨_ | plan, memo'⟩
    · exact .pure trivial
    · exact ih memo'
    · exact .pure trivial

theorem seekBranch_keeps (t : TwTask F) (rest : List (TwTask F)) (memo : TwMemo F) :
    Keeps own (seekBranch d bl p seek t rest memo) fun _ => True := by
  cases t with
  | goal g =>
    refine (deref_keeps p).bind fun s _ => ?_
    rcases g.unsatisfied s with e | _ | ⟨b, unmet⟩
    · exact .pure trivial
    · exact .pure trivial
    · exact seekMethods_keeps seeks _ _ _ memo
  | multiGoal mg =>
    refine (deref_keeps p).bind fun s _ => ?_
    cases mg.unsatisfied s with
    | error e => exact .pure trivial
    | ok unmet => exact tryBindings_keeps seeks mg rest unmet memo
  | call c => exact seekMethods_keeps seeks _ _ _ memo

end Loops

theorem seekStep_keeps {seek : Option (Ref → List (TwTask F) → TwMemo F → HeapM F (Seek F))}
    (seeks : ∀ f ∈ seek, ∀ q, own q → ∀ tasks memo, Keeps own (f q tasks memo) fun _ => True) (mine : own p)
    (tasks : List (TwTask F)) (memo : TwMemo F) : Keeps own (seekStep d bl seek p tasks memo) fun _ => True := by
  rw [seekStep]
  split
  · exact .pure trivial
  · refine (cacheKey_keeps mine memo tasks).bind fun key _ => ?_
    cases memo.lookup key with
    | some answer => exact .pure trivial
    | none =>
      refine (walk_keeps tasks _ tasks 0 mine []).bind fun out at_ => ?_
      rcases out with e | plan | _ | ⟨plan, state, t, rest⟩
      · exact .pure trivial
      · exact .pure trivial
      · exact .pure trivial
      · cases seek with
        | none => exact .pure trivial
        | some seek =>
          refine (seekBranch_keeps (seeks seek rfl state at_) t rest memo).bind fun out _ => ?_
          rcases out with e | ⟨_ | sub, memo'⟩ <;> exact .pure trivial

theorem twSeekPlan_keeps (fuel : Nat) (mine : own p) (tasks : List (TwTask F)) (memo : TwMemo F) :
    Keeps own (twSeekPlan d bl fuel p tasks memo) fun _ => True := by
  induction fuel generalizing p tasks memo with
  | zero => exact seekStep_keeps (fun _ none => by cases none) mine tasks memo
  | succ fuel ih =>
    refine seekStep_keeps (fun f same q mine tasks memo => ?_) mine tasks memo
    obtain rfl := Option.some.inj same
    exact ih mine tasks memo

theorem twPlan_keeps (mine : own p) (tasks : List (TwTask F)) :
    Keeps own (twPlan p tasks d bl) fun _ => True :=
  (twSeekPlan_keeps twMaxDepth mine tasks .fresh).bind fun _ _ => .pure trivial

end Search

/-! ### Replanning -/

section Replan
variable {d : Domain F}

theorem simulateFrom_keeps (plan : List (TwCall F)) (i : Nat) (mine : own p) :
    Keeps own (simulateFrom d i p plan) fun r => own r.state := by
  induction plan generalizing i p with
  | nil => exact .pure mine
  | cons c plan ih =>
    rw [simulateFrom]
    cases d.actions.find? c.name with
    | none => exact .pure mine
    | some act =>
      refine (buildAction_keeps act p c.args).bind fun next mine' => ?_
      cases next with
      | none => exact .pure mine
      | some next => exact ih (i + 1) (mine' next rfl)

theorem twSimulate_keeps (initState : Ref) (plan : List (TwCall F)) :
    Keeps own (twSimulate initState plan d) fun r => own r.state :=
  (copy_keeps initState).bind fun _ mine => simulateFrom_keeps plan 0 mine

theorem simulateTo_keeps (initState : Ref) (plan : List (TwCall F)) (failStep : Int) :
    Keeps own (simulateTo initState plan d failStep) fun r => own r.state := by
  rw [simulateTo]
  split
  · cases plan[failStep.toNat]? with
    | none => exact twSimulate_keeps initState plan
    | some c => exact (twSimulate_keeps initState _).bind fun _ mine => .pure mine
  · exact twSimulate_keeps initState plan

theorem twReplan_keeps (initState : Ref) (plan : List (TwCall F)) (tasks : List (TwTask F)) (failStep : Int) :
    Keeps own (twReplan initState plan tasks d failStep) fun _ => True := by
  refine (simulateTo_keeps initState plan failStep).bind fun sim mine => ?_
  refine (twPlan_keeps mine tasks).bind fun out _ => ?_
  cases out with
  | error e => exact .pure trivial
  | ok newPlan =>
    have valued : Keeps own (sim.value : HeapM F (TwSimulateResult F)) fun _ => True :=
      (deref_keeps sim.state).bind fun _ _ => .pure trivial
    exact valued.bind fun _ _ => .pure trivial

end Replan

/-! ### Loading -/

theorem loadDomain_keeps (data : TwValue F) : Keeps own (loadDomain data) fun r => ∀ l, r = some l → own l.state := by
  cases data with
  | dict kvs =>
    rw [loadDomain]
    split
    · cases (TwLoader.getArr kvs "todo_list").mapM TwLoader.loadTask with
      | none => exact .pure nofun
      | some tasks =>
        refine (alloc_keeps _).bind fun p mine => .pure fun l same => ?_
        rw [← Option.some.inj same]
        exact mine
    · exact .pure nofun
  | nil | bool | int | float | string | array => exact .pure nofun

theorem loadJson_keeps (json : String) :
    Keeps own (loadJson json : HeapM F _) fun r => ∀ l, r = .ok (some l) → own l.state := by
  rw [loadJson]
  cases TwJson.parseJsonStr (F := F) json with
  | error e => exact .pure nofun
  | ok data =>
    refine (loadDomain_keeps data).bind fun found mine => .pure fun l same => mine l ?_
    exact Except.ok.inj same

end Shared
end WeftWarp
