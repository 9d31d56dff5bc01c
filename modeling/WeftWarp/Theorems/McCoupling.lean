import WeftWarp.Theorems.McSimulation
import WeftWarp.Theorems.PlanSound

/-! # Runs on the same draws

Whatever the probabilities, a run of the Monte Carlo executor is the simulation of the plan up to the first step whose draw
is not below its probability. On the same draws, higher probabilities only make it go further. -/

namespace WeftWarp

open TwMCExecutor
open TwLoader (TwLoaded)

variable {F : Type} {d : TwDomain F} {items : List (TwValue F)}

/-- Every call of the plan names an action. -/
def Applicable (d : TwDomain F) (items : List (TwValue F)) : Prop := ∀ item ∈ items, d.hasAction (stepCall item).name = true

theorem trace_known (known : Applicable d items) (s : TwState F) :
    trace (applyAction d) s (items.map stepCall) = trace (simulateStep d) s (items.map stepCall) := by
  refine trace_congr (fun c mem s => ?_) s
  obtain ⟨item, listed, rfl⟩ := List.mem_map.mp mem
  exact applyAction_of_known (known item listed)

variable [CxxMath F] {probs probs' : List F} {draw : Nat → F}

/-- The step is drawn as successful. -/
def lucky (probs : List F) (draw : Nat → F) (i : Nat) : Bool := Cxx.lt (draw i) (probs[i]?.getD 1.0)

/-- How many of `n` steps from `i` on are drawn as successful before one is not. -/
def luck (probs : List F) (draw : Nat → F) : Nat → Nat → Nat
  | _, 0 => 0
  | i, n + 1 => if lucky probs draw i then luck probs draw (i + 1) n + 1 else 0

/-- The states behind the steps that succeeded. -/
def reached (r : Report F) : List (TwState F) := r.steps.filterMap StepResult.state

theorem luck_mono (more : ∀ i, lucky probs draw i = true → lucky probs' draw i = true) (i n : Nat) :
    luck probs draw i n ≤ luck probs' draw i n := by
  induction n generalizing i with
  | zero => exact Nat.le_refl 0
  | succ n ih =>
    rw [luck, luck]
    split
    · rw [if_pos (more i ‹_›)]
      exact Nat.succ_le_succ (ih (i + 1))
    · exact Nat.zero_le _

/-- A run goes through the states behind its calls, as far as its luck goes. -/
theorem reached_run (d : TwDomain F) (probs : List F) (draw : Nat → F) (i : Nat) (s : TwState F) (items : List (TwValue F)) :
    reached (run d probs draw i s items) =
        (trace (applyAction d) s (items.map stepCall)).take (luck probs draw i items.length) ∧
      (run d probs draw i s items).completed = i + (reached (run d probs draw i s items)).length := by
  induction items generalizing i s with
  | nil => exact ⟨rfl, rfl⟩
  | cons item items ih =>
    rw [run, List.map_cons, List.length_cons, luck]
    cases lucks : lucky probs draw i with
    | false =>
      have fails : Cxx.lt (draw i) (probs[i]?.getD 1.0) = false := lucks
      simp only [fails, Bool.false_eq_true, if_false, List.take_zero]
      exact ⟨rfl, rfl⟩
    | true =>
      have succeeds : Cxx.lt (draw i) (probs[i]?.getD 1.0) = true := lucks
      simp only [succeeds, if_true]
      cases applied : applyAction d s (stepCall item) with
      | none =>
        rw [trace_cons_none applied, List.take_nil]
        exact ⟨rfl, rfl⟩
      | some next =>
        obtain ⟨states, completed⟩ := ih (i + 1) next
        rw [trace_cons_some applied, List.take_succ_cons, ← states]
        refine ⟨rfl, completed.trans ?_⟩
        change _ = i + ((reached (run d probs draw (i + 1) next items)).length + 1)
        omega

/-- On a plan of known actions `mc_execute` completes as many steps as the simulation of the part of the plan in which it is
    lucky, and with the same states; with higher probabilities the same draws lead through these states and maybe on. -/
theorem mc_runs_coupled (draws : Int64 → Nat → F) (seed : Int64) {json planJson probsJson probsJson' : String}
    {loaded : TwLoaded F} {plan p p' : TwValue F} (loads : LoadsCalm json loaded)
    (planned : TwJson.parseJsonStr planJson = .ok plan) (known : Applicable loaded.domain plan.asArray)
    (given : TwJson.parseJsonStr probsJson = .ok p) (given' : TwJson.parseJsonStr probsJson' = .ok p')
    (more : ∀ i, lucky (p.asArray.map probability) (draws seed) i = true →
      lucky (p'.asArray.map probability) (draws seed) i = true) :
    let calls := plan.asArray.map stepCall
    let r := run loaded.domain (p.asArray.map probability) (draws seed) 0 loaded.state plan.asArray
    let r' := run loaded.domain (p'.asArray.map probability) (draws seed) 0 loaded.state plan.asArray
    mcExecute draws json planJson probsJson seed = .ok (reportToJson r) ∧
      mcExecute draws json planJson probsJson' seed = .ok (reportToJson r') ∧
      (r.completed : Int) = (twSimulate loaded.state
        (calls.take (luck (p.asArray.map probability) (draws seed) 0 plan.asArray.length)) loaded.domain).completedSteps ∧
      (∀ k, k < r.completed →
        (reached r)[k]? = some (twSimulate loaded.state (calls.take (k + 1)) loaded.domain).state) ∧
      reached r <+: reached r' ∧ r.completed ≤ r'.completed := by
  intro calls r r'
  obtain ⟨states, completed⟩ := reached_run loaded.domain (p.asArray.map probability) (draws seed) 0 loaded.state plan.asArray
  obtain ⟨states', completed'⟩ :=
    reached_run loaded.domain (p'.asArray.map probability) (draws seed) 0 loaded.state plan.asArray
  rw [trace_known known] at states states'
  have further : reached r <+: reached r' := by
    rw [states, states']
    exact List.take_prefix_take_left (luck_mono more 0 plan.asArray.length)
  rw [Nat.zero_add] at completed completed'
  refine ⟨mcExecute_eq draws seed loads.loads planned given, mcExecute_eq draws seed loads.loads planned given', ?_,
    fun k inside => ?_, further, ?_⟩
  · rw [completed, states, ← trace_take, (twSimulate_trace _ loaded.state _).1]
  · rw [completed, states] at inside
    have reaches : k < (trace (simulateStep loaded.domain) loaded.state calls).length :=
      Nat.lt_of_lt_of_le inside (List.length_take_le' ..)
    rw [state_twSimulate_take _ loaded.state _ reaches, states]
    exact List.getElem?_take_of_lt (Nat.lt_of_lt_of_le inside (List.length_take_le ..))
  · rw [completed, completed']
    exact further.length_le

/-- A domain with one action, which notes where to go. -/
def goDocument : String :=
  "\x7b\"actions\":\x7b\"go\":\x7b\"params\":[\"to\"],\"body\":[\x7b\"pointer/set\":\"/at/me\",\"value\":\"\x7bto\x7d\"\x7d]\x7d\x7d\x7d"

theorem loads_goDocument : ∃ loaded : TwLoaded Int, LoadsCalm goDocument loaded ∧ loaded.domain.hasAction "go" = true := by
  have parsed : TwJson.parseJsonStr (F := Int) goDocument =
      .ok (.dict [("actions", .dict [("go", .dict [("params", .array [.string "to"]), ("body",
        .array [.dict [("pointer/set", .string "/at/me"), ("value", .string "\x7bto\x7d")]])])])]) := by decide +kernel
  exact ⟨_, ⟨by rw [TwLoader.loadJson, parsed]; rfl, calm_of_parse parsed (by decide +kernel)⟩, by decide +kernel⟩

/-- The second of two steps fails with probability 0, and succeeds with probability 1. -/
theorem mc_runs_coupled_go : ∃ r r' : Report Int,
    mcExecute drawZero goDocument "[[\"go\",\"a\"],[\"go\",\"b\"]]" "[1,0]" 10 = .ok (reportToJson r) ∧
      mcExecute drawZero goDocument "[[\"go\",\"a\"],[\"go\",\"b\"]]" "[1]" 10 = .ok (reportToJson r') ∧
      reached r <+: reached r' := by
  obtain ⟨loaded, loads, named⟩ := loads_goDocument
  have planned : TwJson.parseJsonStr (F := Int) "[[\"go\",\"a\"],[\"go\",\"b\"]]" =
      .ok (.array [.array [.string "go", .string "a"], .array [.string "go", .string "b"]]) := by decide +kernel
  have given : TwJson.parseJsonStr (F := Int) "[1,0]" = .ok (.array [.int 1, .int 0]) := by decide +kernel
  have given' : TwJson.parseJsonStr (F := Int) "[1]" = .ok (.array [.int 1]) := by decide +kernel
  have known : Applicable loaded.domain
      (TwValue.array [.array [.string "go", .string "a"], .array [.string "go", .string "b"]] : TwValue Int).asArray := by
    simp only [Applicable, TwValue.asArray, List.forall_mem_cons]
    exact ⟨named, named, List.forall_mem_nil _⟩
  obtain ⟨text, text', -, -, further, -⟩ := mc_runs_coupled drawZero 10 loads planned known given given' fun i lucks => by
    rcases i with _ | _ | i <;> rfl
  exact ⟨_, _, text, text', further⟩

end WeftWarp
