import WeftWarp.Shared
import WeftWarp.Theorems.Documents

/-! # Pointers do not show

The code on states behind pointers answers what the functions of states answer, and leaves every state that it was
given as it was. Only the memo of a hash may be filled in. -/

namespace WeftWarp
namespace Shared

open Heap
open TwJson (Thrown)
open TwLoader (Params parsePointer getArr evalExpr)

/-! ## States in memory -/

section Cells
variable {F : Type} [Cxx F] {h h₀ : List (Cell F)} {p : Ref} {s : TwState F}

theorem load_yields (points : Points Cell.state h p s) :
    Yields Cell.state (load p) h fun c h' => h' = h ∧ h[p]? = some c ∧ c.state = s := by
  obtain ⟨c, found, same⟩ := points.cell
  refine ⟨.refl h, rfl, ?_⟩
  change h[p]? = some (h[p]?.getD _) ∧ (h[p]?.getD _).state = s
  rw [found]
  exact ⟨rfl, same⟩

theorem deref_returns (points : Points Cell.state h p s) : Returns Cell.state (deref p) h s :=
  Yields.bind (load_yields points) fun _ _ _ loaded => Yields.pure loaded.2.2

theorem alloc_yields (c : Cell F) :
    Yields Cell.state (alloc c) h fun q h' => Points Cell.state h' q c.state ∧ h.length ≤ q :=
  ⟨extends_append h [c], points_append h c, Nat.le_refl _⟩

theorem copy_yields (points : Points Cell.state h p s) :
    Yields Cell.state (copy p) h fun q h' => Points Cell.state h' q s ∧ h.length ≤ q := by
  refine Yields.bind (load_yields points) fun c h' _ loaded => ?_
  obtain ⟨rfl, -, rfl⟩ := loaded
  exact alloc_yields c

theorem signatureHash_returns (points : Points Cell.state h p s) :
    Returns Cell.state (signatureHash p) h s.signatureHash := by
  refine Yields.bind (load_yields points) fun c h' _ loaded => ?_
  obtain ⟨rfl, -, rfl⟩ := loaded
  cases memo : c.sigHash with
  | some hash => exact Yields.pure (c.valid hash memo)
  | none => exact ⟨extends_set_same points, rfl⟩

end Cells

/-! ## Actions -/

section Actions
variable {F : Type} [CxxMath F] {h h₀ : List (Cell F)} {p : Ref} {s : TwState F}

/-- The program works on a state behind `h₀`: it leaves the outcome there, or gives up where there is none. -/
structure Ends (h₀ : List (Cell F)) (m : HeapM F Bool) (h : List (Cell F)) (p : Ref) (outcome : Option (TwState F)) :
    Prop where
  grown : Extends Cell.state h₀ (m.run h).2
  answer : (m.run h).1 = outcome.isSome
  points : ∀ s', outcome = some s' → Points Cell.state (m.run h).2 p s'

theorem run_deref (points : Points Cell.state h p s) : (deref p).run h = (s, h) := by
  obtain ⟨c, found, rfl⟩ := points.cell
  change ((h[p]?.getD _).state, h) = (c.state, h)
  rw [found, Option.getD_some]

theorem Ends.none {m : HeapM F Bool} (grown : Extends Cell.state h₀ h) (run : m.run h = (false, h)) :
    Ends h₀ m h p none where
  grown := by rwa [run]
  answer := by rw [run]; rfl
  points := fun _ outcome => nomatch outcome

theorem Ends.some {m : HeapM F Bool} {h' : List (Cell F)} (grown : Extends Cell.state h₀ h') (run : m.run h = (true, h'))
    (points : Points Cell.state h' p s) : Ends h₀ m h p (some s) where
  grown := by rwa [run]
  answer := by rw [run]; rfl
  points := fun s' outcome => by
    obtain rfl := Option.some.inj outcome
    rwa [run]

theorem runStep_ends (params : Params F) (fresh : h₀.length ≤ p) (grown : Extends Cell.state h₀ h)
    (points : Points Cell.state h p s) (step : TwValue F) :
    Ends h₀ (runStep params p step) h p (TwLoader.runStep params s step) := by
  rw [runStep, TwLoader.runStep]
  cases step.asDict.lookup "eval" with
  | some expr =>
    dsimp only
    have run : (do return TwLoader.holds (evalExpr params (← deref p) expr) : HeapM F Bool).run h =
        (TwLoader.holds (evalExpr params s expr), h) := by
      rw [run_bind, run_deref points]
      rfl
    cases guard : TwLoader.holds (evalExpr params s expr) with
    | true =>
      rw [if_pos rfl]
      exact .some grown (run.trans (by rw [guard])) points
    | false =>
      rw [if_neg Bool.false_ne_true]
      exact .none grown (run.trans (by rw [guard]))
  | none =>
    cases step.asDict.lookup "pointer/set" with
    | none => exact .none grown rfl
    | some ptr =>
      dsimp only
      generalize parsePointer ptr.asString params = target
      obtain ⟨var, key⟩ := target
      split
      · exact .none grown rfl
      · cases step.asDict.lookup "value" with
        | none => exact .none grown rfl
        | some expr =>
          -- The write goes to a place that the base heap does not have.
          have written : Points Cell.state (h.set p (.unhashed (s.setNested var key (evalExpr params s expr)))) p
              (s.setNested var key (evalExpr params s expr)) := points_set points.lt _
          refine .some (extends_set_fresh grown fresh _) ?_ written
          rw [run_bind, run_bind, setNested, run_bind, run_deref points, run_deref points]
          rfl

theorem runBody_ends (params : Params F) (fresh : h₀.length ≤ p) (body : List (TwValue F)) (grown : Extends Cell.state h₀ h)
    (points : Points Cell.state h p s) : Ends h₀ (runBody params p body) h p (TwLoader.runBody params body s) := by
  induction body generalizing h s with
  | nil => exact .some grown rfl points
  | cons step body ih =>
    obtain ⟨grown', answer, points'⟩ := runStep_ends params fresh grown points step
    have run : (runBody params p (step :: body)).run h =
        (if ((runStep params p step).run h).1 then runBody params p body else pure false).run
          ((runStep params p step).run h).2 := rfl
    rw [TwLoader.runBody]
    cases outcome : TwLoader.runStep params s step with
    | none =>
      rw [answer, outcome] at run
      exact ⟨by rw [run]; exact grown', by rw [run]; rfl, fun _ stopped => nomatch stopped⟩
    | some s' =>
      rw [answer, outcome] at run
      obtain ⟨grown'', answer', points''⟩ := ih grown' (points' s' outcome)
      exact ⟨by rw [run]; exact grown'', by rw [run]; exact answer', fun s'' last => by rw [run]; exact points'' s'' last⟩

theorem buildAction_yields (points : Points Cell.state h p s) (d : Dict F) (args : List (TwValue F)) :
    Yields Cell.state (buildAction d p args) h fun r h' =>
      Option.Rel (Points Cell.state h') r (TwLoader.buildAction d s args) := by
  refine Returns.bind (deref_returns points) fun h₁ grown₁ => ?_
  obtain ⟨grown₂, copied, fresh⟩ := copy_yields (grown₁ p s points)
  -- The body writes only to the copy, which the heap before it does not have.
  obtain ⟨grown₃, answer, outcome⟩ := runBody_ends
    (TwLoader.runBinds (getArr d "bind") (TwLoader.buildParams (getArr d "params") args) s)
    fresh (getArr d "body") grown₂ copied
  rw [TwLoader.buildAction]
  generalize TwLoader.runBody _ _ s = made at answer outcome ⊢
  rw [Yields, run_bind, run_bind, answer]
  cases made with
  | none => exact ⟨grown₃, .none⟩
  | some s' => exact ⟨grown₃, .some (outcome s' rfl)⟩

theorem find?_view (d : Domain F) (name : String) :
    d.view.actions.find? name = (d.actions.find? name).map TwLoader.buildAction :=
  OrderedMap.find?_mapValues d.actions TwLoader.buildAction name

end Actions

/-! ## Search -/

section Search
variable {F : Type} [CxxMath F] {h : List (Cell F)} {p : Ref} {s : TwState F} {d : Domain F} {bl : TwBlacklist}

theorem cacheKey_returns (points : Points Cell.state h p s) (memo : TwMemo F) (tasks : List (TwTask F)) :
    Returns Cell.state (cacheKey memo p tasks) h (memo.cacheKey s tasks) := by
  rw [cacheKey, TwMemo.cacheKey]
  split
  · exact Returns.bind (signatureHash_returns points) fun _ _ => Returns.pure
  · exact Returns.pure

/-- The fast path ends as `walk` does, in a state that the pointer leads to. -/
def Walk.Shows (h : List (Cell F)) : Except Thrown (Walk F) → Except Thrown (WeftWarp.Walk F) → Prop
  | .error e, r => r = .error e
  | .ok (.done plan), r => r = .ok (.done plan)
  | .ok .dead, r => r = .ok .dead
  | .ok (.branch plan p t rest), r => ∃ s, Points Cell.state h p s ∧ r = .ok (.branch plan s t rest)

theorem walk_yields (tasks : List (TwTask F)) (cache : TwWitnessScanCache) (rest : List (TwTask F)) (idx : Nat)
    (plan : List (TwCall F)) (points : Points Cell.state h p s) :
    Yields Cell.state (walk d bl tasks cache idx p plan rest) h fun r h' =>
      Walk.Shows h' r (WeftWarp.walk d.view bl tasks cache idx s plan rest) := by
  induction rest generalizing h p s idx plan with
  | nil => exact Yields.pure rfl
  | cons t rest ih =>
    rw [walk.eq_def, WeftWarp.walk.eq_def]
    dsimp only
    refine Returns.bind (deref_returns points) fun h₁ grown₁ => ?_
    have points₁ := grown₁ p s points
    cases twWitnessOracleGoalReachCached s tasks d.view cache idx with
    | error e => exact Yields.pure rfl
    | ok wr =>
      dsimp only
      split
      · exact Yields.pure rfl
      · cases t with
        | goal g =>
          refine Returns.bind (deref_returns points₁) fun h₂ grown₂ => ?_
          have points₂ := grown₂ p s points₁
          dsimp only
          rcases g.isSatisfied s with e | _ | _
          · exact Yields.pure rfl
          · exact Yields.pure ⟨s, points₂, rfl⟩
          · exact ih (idx + 1) plan points₂
        | multiGoal mg =>
          refine Returns.bind (deref_returns points₁) fun h₂ grown₂ => ?_
          have points₂ := grown₂ p s points₁
          dsimp only
          rcases mg.isSatisfied s with e | _ | _
          · exact Yields.pure rfl
          · exact Yields.pure ⟨s, points₂, rfl⟩
          · exact ih (idx + 1) plan points₂
        | call c =>
          dsimp only
          rw [find?_view]
          cases d.actions.find? c.name with
          | none => exact Yields.pure ⟨s, points₁, rfl⟩
          | some act =>
            dsimp only [Option.map_some]
            split
            · exact Yields.pure rfl
            · refine Yields.bind (copy_yields points₁) fun q h₂ _ copied => ?_
              refine Yields.bind (buildAction_yields copied.1 act c.args) fun r h₃ _ acted => ?_
              generalize TwLoader.buildAction act s c.args = made at acted ⊢
              cases acted with
              | none => exact Yields.pure rfl
              | some points₃ => exact ih (idx + 1) (plan ++ [c]) points₃

section Loops
variable {seek : List (TwTask F) → TwMemo F → HeapM F (Seek F)} {seek₀ : List (TwTask F) → TwMemo F → Seek F}

/-- In every later heap the call answers what the function does. -/
def Answers (h : List (Cell F)) (seek : List (TwTask F) → TwMemo F → HeapM F (Seek F))
    (seek₀ : List (TwTask F) → TwMemo F → Seek F) : Prop :=
  ∀ tasks memo h', Extends Cell.state h h' → Returns Cell.state (seek tasks memo) h' (seek₀ tasks memo)

theorem Answers.later {h' : List (Cell F)} (answers : Answers h seek seek₀) (grown : Extends Cell.state h h') :
    Answers h' seek seek₀ :=
  fun tasks memo h'' grown' => answers tasks memo h'' (grown.trans grown')

theorem tryMethods_returns (methods : List (TwMethodFn F)) (args : List (TwValue F)) (key : UInt64)
    (extend : List (TwTask F) → List (TwTask F)) (order : List Nat) (seen : List UInt64) (memo : TwMemo F)
    (points : Points Cell.state h p s) (answers : Answers h seek seek₀) :
    Returns Cell.state (tryMethods d bl p seek methods args key extend order seen memo) h
      (WeftWarp.tryMethods d.view bl s seek₀ methods args key extend order seen memo) := by
  induction order generalizing h seen memo with
  | nil => exact Returns.pure
  | cons midx order ih =>
    rw [tryMethods, WeftWarp.tryMethods]
    refine Returns.bind (deref_returns points) fun h₁ grown₁ => ?_
    have points₁ := grown₁ p s points
    have answers₁ := answers.later grown₁
    cases methods[midx]? >>= fun method => method s args with
    | none => exact ih seen memo points₁ answers₁
    | some subs =>
      dsimp only
      split
      · exact ih seen memo points₁ answers₁
      · rcases twPrefixPlausible d.view bl s 2 (extend subs) with e | _ | _
        · exact Returns.pure
        · exact ih _ memo points₁ answers₁
        · refine Returns.bind (answers _ _ h₁ grown₁) fun h₂ grown₂ => ?_
          rcases seek₀ (extend subs) memo with e | ⟨_ | plan, memo'⟩
          · exact Returns.pure
          · exact ih _ _ (grown₂ p s points₁) (answers₁.later grown₂)
          · exact Returns.pure

theorem seekMethods_returns (name : String) (args : List (TwValue F)) (extend : List (TwTask F) → List (TwTask F))
    (memo : TwMemo F) (points : Points Cell.state h p s) (answers : Answers h seek seek₀) :
    Returns Cell.state (seekMethods d bl p seek name args extend memo) h
      (WeftWarp.seekMethods d.view bl s seek₀ name args extend memo) := by
  rw [seekMethods, WeftWarp.seekMethods, Domain.view]
  cases d.taskMethods.find? name with
  | none => exact Returns.pure
  | some methods => exact tryMethods_returns methods args _ extend _ [] _ points answers

theorem tryBindings_returns (mg : TwMultiGoal F) (rest : List (TwTask F)) (unmet : List (TwGoalBinding F))
    (memo : TwMemo F) (answers : Answers h seek seek₀) :
    Returns Cell.state (tryBindings seek mg rest unmet memo) h (WeftWarp.tryBindings seek₀ mg rest unmet memo) := by
  induction unmet generalizing h memo with
  | nil => exact Returns.pure
  | cons b unmet ih =>
    rw [tryBindings, WeftWarp.tryBindings]
    refine Returns.bind (answers _ memo h (.refl h)) fun h₁ grown₁ => ?_
    rcases seek₀ (.goal ⟨[b]⟩ :: .multiGoal mg :: rest) memo with e | ⟨_ | plan, memo'⟩
    · exact Returns.pure
    · exact ih memo' (answers.later grown₁)
    · exact Returns.pure

theorem seekBranch_returns (t : TwTask F) (rest : List (TwTask F)) (memo : TwMemo F)
    (points : Points Cell.state h p s) (answers : Answers h seek seek₀) :
    Returns Cell.state (seekBranch d bl p seek t rest memo) h (WeftWarp.seekBranch d.view bl s seek₀ t rest memo) := by
  rw [seekBranch.eq_def, WeftWarp.seekBranch.eq_def]
  cases t with
  | goal g =>
    refine Returns.bind (deref_returns points) fun h₁ grown₁ => ?_
    dsimp only
    rcases g.unsatisfied s with e | _ | ⟨b, unmet⟩
    · exact Returns.pure
    · exact Returns.pure
    · exact seekMethods_returns _ _ _ memo (grown₁ p s points) (answers.later grown₁)
  | multiGoal mg =>
    refine Returns.bind (deref_returns points) fun h₁ grown₁ => ?_
    dsimp only
    cases mg.unsatisfied s with
    | error e => exact Returns.pure
    | ok unmet => exact tryBindings_returns mg rest unmet memo (answers.later grown₁)
  | call c => exact seekMethods_returns _ _ _ memo points answers

end Loops

theorem seekStep_returns {seek : Option (Ref → List (TwTask F) → TwMemo F → HeapM F (Seek F))}
    {seek₀ : Option (TwState F → List (TwTask F) → TwMemo F → Seek F)} (tasks : List (TwTask F)) (memo : TwMemo F)
    (points : Points Cell.state h p s)
    (answers : Option.Rel (fun seek seek₀ => ∀ h p s, Points Cell.state h p s → Answers h (seek p) (seek₀ s)) seek seek₀) :
    Returns Cell.state (seekStep d bl seek p tasks memo) h (WeftWarp.seekStep d.view bl seek₀ s tasks memo) := by
  rw [seekStep, WeftWarp.seekStep]
  split
  · exact Returns.pure
  · refine Returns.bind (cacheKey_returns points memo tasks) fun h₁ grown₁ => ?_
    dsimp only
    cases memo.lookup (memo.cacheKey s tasks) with
    | some answer => exact Returns.pure
    | none =>
      refine Yields.bind (walk_yields tasks _ tasks 0 [] (grown₁ p s points)) fun r h₂ grown₂ shows => ?_
      rcases r with e | plan | _ | ⟨plan, q, t, rest⟩
      · rw [shows]
        exact Returns.pure
      · rw [shows]
        exact Returns.pure
      · rw [shows]
        exact Returns.pure
      · obtain ⟨s', points', walked⟩ := shows
        rw [walked]
        cases answers with
        | none => exact Returns.pure
        | some answers =>
          refine Returns.bind (seekBranch_returns t rest memo points' (answers h₂ q s' points')) fun h₃ _ => ?_
          dsimp only
          rcases WeftWarp.seekBranch d.view bl s' _ t rest memo with e | ⟨_ | sub, memo'⟩ <;> exact Returns.pure

theorem twSeekPlan_returns (fuel : Nat) (tasks : List (TwTask F)) (memo : TwMemo F) (points : Points Cell.state h p s) :
    Returns Cell.state (twSeekPlan d bl fuel p tasks memo) h (WeftWarp.twSeekPlan d.view bl fuel s tasks memo) := by
  induction fuel generalizing h p s tasks memo with
  | zero => exact seekStep_returns tasks memo points .none
  | succ fuel ih =>
    refine seekStep_returns tasks memo points (.some fun h p s points => ?_)
    intro tasks memo h' grown
    exact ih tasks memo (grown p s points)

theorem twPlan_returns (tasks : List (TwTask F)) (points : Points Cell.state h p s) :
    Returns Cell.state (twPlan p tasks d bl) h (WeftWarp.twPlan s tasks d.view bl) :=
  Returns.bind (twSeekPlan_returns twMaxDepth tasks .fresh points) fun _ _ => Returns.pure

end Search

/-! ## Replanning -/

section Replan
variable {F : Type} [CxxMath F] {h : List (Cell F)} {p : Ref} {s : TwState F} {d : Domain F}

/-- The result of a simulation with the state that its pointer leads to. -/
structure SimulateResult.Shows (h : List (Cell F)) (r : SimulateResult) (r₀ : TwSimulateResult F) : Prop where
  completedSteps : r.completedSteps = r₀.completedSteps
  failStep : r.failStep = r₀.failStep
  failAction : r.failAction = r₀.failAction
  state : Points Cell.state h r.state r₀.state

theorem simulateFrom_yields (plan : List (TwCall F)) (i : Nat) (points : Points Cell.state h p s) :
    Yields Cell.state (simulateFrom d i p plan) h fun r h' =>
      r.Shows h' (WeftWarp.simulateFrom d.view i s plan) := by
  induction plan generalizing h p s i with
  | nil => exact Yields.pure ⟨rfl, rfl, rfl, points⟩
  | cons c plan ih =>
    rw [simulateFrom, WeftWarp.simulateFrom, find?_view]
    cases d.actions.find? c.name with
    | none => exact Yields.pure ⟨rfl, rfl, rfl, points⟩
    | some act =>
      refine Yields.bind (buildAction_yields points act c.args) fun r h₁ grown acted => ?_
      dsimp only [Option.map_some]
      generalize TwLoader.buildAction act s c.args = made at acted ⊢
      cases acted with
      | none => exact Yields.pure ⟨rfl, rfl, rfl, grown p s points⟩
      | some points₁ => exact ih (i + 1) points₁

theorem twSimulate_yields (plan : List (TwCall F)) (points : Points Cell.state h p s) :
    Yields Cell.state (twSimulate p plan d) h fun r h' => r.Shows h' (WeftWarp.twSimulate s plan d.view) :=
  Yields.bind (copy_yields points) fun _ _ _ copied => simulateFrom_yields plan 0 copied.1

theorem simulateTo_yields (plan : List (TwCall F)) (failStep : Int) (points : Points Cell.state h p s) :
    Yields Cell.state (simulateTo p plan d failStep) h fun r h' =>
      r.Shows h' (WeftWarp.simulateTo s plan d.view failStep) := by
  rw [simulateTo, WeftWarp.simulateTo]
  split
  · cases plan[failStep.toNat]? with
    | none => exact twSimulate_yields plan points
    | some c =>
      refine Yields.bind (twSimulate_yields (plan.take failStep.toNat) points) fun r h₁ _ shows => ?_
      exact Yields.pure ⟨rfl, rfl, rfl, shows.state⟩
  · exact twSimulate_yields plan points

theorem value_returns {r : SimulateResult} {r₀ : TwSimulateResult F} (shows : r.Shows h r₀) :
    Returns Cell.state r.value h r₀ := by
  refine Returns.bind (deref_returns shows.state) fun _ _ => ?_
  rw [shows.completedSteps, shows.failStep, shows.failAction]
  exact Returns.pure

theorem twReplan_returns (plan : List (TwCall F)) (tasks : List (TwTask F)) (failStep : Int)
    (points : Points Cell.state h p s) :
    Returns Cell.state (twReplan p plan tasks d failStep) h (WeftWarp.twReplan s plan tasks d.view failStep) := by
  refine Yields.bind (simulateTo_yields plan failStep points) fun sim h₁ grown₁ shows => ?_
  rw [WeftWarp.twReplan, shows.failStep]
  refine Returns.bind (twPlan_returns tasks shows.state) fun h₂ grown₂ => ?_
  cases WeftWarp.twPlan (WeftWarp.simulateTo s plan d.view failStep).state tasks d.view _ with
  | error e => exact Returns.pure
  | ok newPlan =>
    have shows' : sim.Shows h₂ _ := { shows with state := grown₂ _ _ shows.state }
    exact Returns.bind (value_returns shows') fun _ _ => Returns.pure

end Replan

/-! ## Loading -/

section Load
variable {F : Type} [CxxMath F] {h : List (Cell F)}

open TwLoader (TwLoaded)

/-- The heap holds what was loaded. -/
structure Loaded.Shows (h : List (Cell F)) (l : Loaded F) (l₀ : TwLoaded F) : Prop where
  domain : l.domain.view = l₀.domain
  state : Points Cell.state h l.state l₀.state
  tasks : l.tasks = l₀.tasks

theorem Loaded.Shows.later {h' : List (Cell F)} {l : Loaded F} {l₀ : TwLoaded F} (shows : l.Shows h l₀)
    (grown : Extends Cell.state h h') : l.Shows h' l₀ :=
  { shows with state := grown _ _ shows.state }

theorem view_loadCallables (kvs : Dict F) : (loadCallables kvs).view = TwLoader.loadCallables kvs := by
  have one : (fun v : TwValue F => (definitionOf v).map TwLoader.buildAction) = actionOf := by
    funext v
    rw [definitionOf, actionOf]
    split <;> rfl
  have actions : (loadCallables kvs).actions.mapValues TwLoader.buildAction = (TwLoader.loadCallables kvs).actions := by
    rw [loadCallables, OrderedMap.mapValues_writeAll, one, TwLoader.loadCallables, actions_loadMethods,
      foldl_eq_writeAll actions_loadAction]
    rfl
  rw [Domain.view, actions]
  rfl

theorem loadDomain_yields (data : TwValue F) :
    Yields Cell.state (loadDomain data) h fun r h' => Option.Rel (Loaded.Shows h') r (TwLoader.loadDomain data) := by
  cases data with
  | dict kvs =>
    rw [loadDomain, TwLoader.loadDomain]
    split
    · cases (getArr kvs "todo_list").mapM TwLoader.loadTask with
      | none => exact Yields.pure .none
      | some tasks =>
        refine Yields.bind (alloc_yields (.unhashed (TwLoader.loadState kvs))) fun q h₁ _ allocated => ?_
        exact Yields.pure (.some ⟨view_loadCallables kvs, allocated.1, rfl⟩)
    · exact Yields.pure .none
  | _ => exact Yields.pure .none

/-- What loading a text answers: the same exception, or a document with the same parts. -/
def LoadShows (h : List (Cell F)) : Except Thrown (Option (Loaded F)) → Except Thrown (Option (TwLoaded F)) → Prop
  | .error e, r => r = .error e
  | .ok l, r => ∃ l₀, r = .ok l₀ ∧ Option.Rel (Loaded.Shows h) l l₀

theorem loadJson_yields (json : String) :
    Yields Cell.state (loadJson json) h fun r h' => LoadShows h' r (TwLoader.loadJson json) := by
  rw [loadJson, TwLoader.loadJson]
  cases TwJson.parseJsonStr (F := F) json with
  | error e => exact Yields.pure rfl
  | ok data =>
    refine Yields.bind (loadDomain_yields data) fun l h₁ _ shows => ?_
    exact Yields.pure ⟨_, rfl, shows⟩

end Load

end Shared
end WeftWarp
