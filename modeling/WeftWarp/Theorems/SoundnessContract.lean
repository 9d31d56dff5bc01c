import WeftWarp.Theorems.NifHistory
import WeftWarp.Theorems.PlanText

/-! # The soundness contract of the native functions

`docs/rectgtn.md` promises that a returned plan, replanned with the same document and `fail_step` -1, completes. On
the way its text turns every argument into a string. -/

namespace WeftWarp

open TwJson (Thrown)
open TwLoader Nif
open Shared (Process run run_answer sound_after sound_fresh)

variable {F : Type} [CxxMath F]

/-! ### Answers -/

theorem answer_plan {json text : String} (planned : answer F (.plan json) = .ok text) :
    ∃ found steps, loadJson (F := F) json = .ok (some found) ∧
      twPlan found.state found.tasks found.domain [] = .ok (some steps) ∧ text = planToJson steps := by
  rcases loads : loadJson (F := F) json with e | _ | found <;> simp only [answer, opened, loads] at planned
  · cases planned
  · cases planned
  · change (WeftWarp.planned found).map planToJson = .ok text at planned
    rcases plans : twPlan found.state found.tasks found.domain [] with e | _ | steps <;>
      simp only [WeftWarp.planned, plans] at planned
    · cases planned
    · cases planned
    · exact ⟨found, steps, rfl, plans, (Except.ok.inj planned).symm⟩

theorem answer_replan {json text : String} {failStep : Int64} {found : TwLoaded F} {steps : List (TwCall F)}
    {r : TwReplanResult F} (loads : loadJson json = .ok (some found)) (parses : parsePlan text = .ok steps)
    (replans : twReplan found.state steps found.tasks found.domain failStep.toInt32.toInt = .ok r) :
    ∃ newPlan, answer F (.replan json text failStep) =
      .ok (twReplanToJson failStep.toInt32.toInt r (planToJson steps) newPlan) := by
  rw [answer, opened, loads, parses]
  change ∃ newPlan, replanned found _ steps = _
  rw [replanned, replans]
  exact ⟨_, rfl⟩

/-! ### The contract -/

/-- A call with string arguments in which nothing needs an escape. -/
structure Quotable (c : TwCall F) : Prop where
  name : Clean c.name
  args : ∀ arg ∈ c.args, ∃ s, arg = .string s ∧ Clean s

theorem Quotable.printable {c : TwCall F} (q : Quotable c) : Printable c where
  name := q.name
  args arg member := by
    obtain ⟨s, rfl, clean⟩ := q.args arg member
    simpa [TwValue.toText] using clean

theorem Quotable.asText_eq {c : TwCall F} (q : Quotable c) : asText c = c := by
  have same : ∀ arg ∈ c.args, (TwValue.string arg.toText : TwValue F) = arg := by
    intro arg member
    obtain ⟨s, rfl, -⟩ := q.args arg member
    simp [TwValue.toText]
  rw [asText, List.map_congr_left same, List.map_id']

/-- The functions of a loaded document leave the relationship graph as it is. -/
theorem closed_of_loadJson {json : String} {found : TwLoaded F} (loads : loadJson json = .ok (some found)) :
    Closed found.domain fun s => s.rebacGraph = found.state.rebacGraph := by
  rw [loadJson] at loads
  cases parsed : TwJson.parseJsonStr (F := F) json with
  | error e => simp [parsed, Except.map] at loads
  | ok data =>
    obtain ⟨kvs, -, domain, -⟩ := loadDomain_eq_some (show loadDomain data = some found by simpa [parsed, Except.map] using loads)
    rw [domain]
    exact closed_loadCallables fun s _ _ _ hs => hs

/-- A decomposition of a document's task list is completed by `tw_replan` without a failed step. -/
theorem twReplan_of_decomposes {json : String} {found : TwLoaded F} (loads : loadJson json = .ok (some found))
    {steps : List (TwCall F)} (decomposes : Decomposes found.domain found.state found.tasks steps) :
    ∃ r, twReplan found.state steps found.tasks found.domain (-1) = .ok r ∧
      r.simulate.completedSteps = steps.length ∧ r.simulate.failStep = -1 := by
  obtain ⟨t, run⟩ := decomposes
  have simulates : simulateTo found.state steps found.domain (-1) = ⟨steps.length, -1, "", t⟩ := by
    rw [simulateTo, if_neg (by decide)]
    exact twSimulate_of_run run
  -- The new plan is made from the state behind the last step, where no check throws either.
  have closed := closed_of_loadJson loads
  have graph : t.rebacGraph = found.state.rebacGraph :=
    (Admits.of_run (B := fun _ => True) closed run ⟨rfl, fun _ _ _ _ => trivial⟩).state
  obtain ⟨newPlan, plans⟩ : ∃ newPlan, twPlan t found.tasks found.domain (blacklistStep steps (-1)) = .ok newPlan :=
    twPlan_isOk_of_decomposes closed ⟨t, run⟩ rfl graph
  refine ⟨⟨⟨steps.length, -1, "", t⟩, newPlan, newPlan.isSome, blacklistStep steps (-1)⟩, ?_, rfl, rfl⟩
  simp only [twReplan, simulates, plans]
  rfl

/-- A plan that `plan` returns as text is completed by `replan`, each after any calls, if the plan has string
    arguments only, and no quote or backslash. -/
theorem replan_completes (history history' : List NifCall) {json text : String}
    (planned : ((run (.plan json)).call ((Process.fresh : Process F).after history)).1 = .ok text)
    (quotable : ∀ (found : TwLoaded F) (steps : List (TwCall F)), loadJson json = .ok (some found) →
      twPlan found.state found.tasks found.domain [] = .ok (some steps) → ∀ c ∈ steps, Quotable c) :
    ∃ (steps : List (TwCall F)) (r : TwReplanResult F) (newPlan : String), text = planToJson steps ∧
      ((run (.replan json text (-1))).call ((Process.fresh : Process F).after history')).1 =
        .ok (twReplanToJson (-1) r text newPlan) ∧
      r.simulate.completedSteps = steps.length ∧ r.simulate.failStep = -1 := by
  rw [run_answer (sound_after history sound_fresh)] at planned
  obtain ⟨found, steps, loads, plans, rfl⟩ := answer_plan planned
  have quotes := quotable found steps loads plans
  have parses : parsePlan (planToJson steps) = .ok steps := by
    rw [parsePlan_planToJson fun c member => (quotes c member).printable]
    rw [List.map_congr_left fun c member => (quotes c member).asText_eq, List.map_id']
  obtain ⟨r, replans, completed, noFailure⟩ :=
    twReplan_of_decomposes loads (decomposes_of_solves (tree_of_twPlan plans))
  obtain ⟨newPlan, returns⟩ := answer_replan loads parses (show twReplan _ _ _ _ (-1 : Int64).toInt32.toInt = _ from replans)
  rw [run_answer (sound_after history' sound_fresh)]
  exact ⟨steps, r, newPlan, rfl, returns, completed, noFailure⟩

/-- A document whose action is guarded by `n = 3` and called with the integer 3. -/
def guardDocument : String :=
  "\x7b\"actions\":\x7b\"a\":\x7b\"params\":[\"n\"],\"body\":[\x7b\"eval\":\x7b\"type\":\"eq\",\"a\":\"\x7bn\x7d\",\"b\":3\x7d\x7d]\x7d\x7d," ++
    "\"todo_list\":[[\"a\",3]]\x7d"

/-- The one step of the plan comes back with the string `"3"`, and its guard fails. -/
theorem replan_guardDocument :
    ((run (.plan guardDocument)).call (Process.fresh : Process Int)).1 = .ok "[[\"a\", \"3\"]]" ∧
      ((run (.replan guardDocument "[[\"a\", \"3\"]]" (-1))).call (Process.fresh : Process Int)).1 =
        .ok ("\x7b\n  \"original_plan\": [[\"a\", \"3\"]],\n  \"fail_step\": -1,\n  \"completed_steps\": 0,\n" ++
          "  \"recovered\": false,\n  \"new_plan\": null\n\x7d") := by
  rw [run_answer sound_fresh, run_answer sound_fresh]
  decide +kernel

/-- A document with one call of an action that does nothing. -/
def callDocument : String := "\x7b\"actions\":\x7b\"a\":\x7b\x7d\x7d,\"todo_list\":[[\"a\",\"x\"]]\x7d"

theorem replan_completes_callDocument :
    ∃ (steps : List (TwCall Int)) (r : TwReplanResult Int) (newPlan : String), "[[\"a\", \"x\"]]" = planToJson steps ∧
      ((run (.replan callDocument "[[\"a\", \"x\"]]" (-1))).call
        ((Process.fresh : Process Int).after [.plan callDocument])).1 =
        .ok (twReplanToJson (-1) r "[[\"a\", \"x\"]]" newPlan) ∧
      r.simulate.completedSteps = steps.length ∧ r.simulate.failStep = -1 := by
  have plans : answer Int (.plan callDocument) = .ok "[[\"a\", \"x\"]]" := by decide +kernel
  refine replan_completes [] [.plan callDocument] ((run_answer sound_fresh _).trans plans) fun found steps loads found' => ?_
  have plan : ((loadJson (F := Int) callDocument).bind fun l => l.elim (.ok none) fun l =>
      twPlan l.state l.tasks l.domain []) = .ok (some [⟨"a", [.string "x"]⟩]) := by decide +kernel
  simp only [loads, Except.bind, Option.elim, found', Except.ok.injEq, Option.some.injEq] at plan
  subst plan
  exact List.forall_mem_singleton.mpr ⟨by decide, fun arg hArg => ⟨"x", List.mem_singleton.mp hArg, by decide⟩⟩

end WeftWarp
