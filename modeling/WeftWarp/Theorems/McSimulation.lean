import WeftWarp.McExecutor
import WeftWarp.Nif

/-! # Certain success

Where every draw succeeds, the Monte Carlo executor runs a plan as `tw_simulate` does, up to an item that names no
action: the executor goes on there and counts a step. Both are compared by the states behind their steps. -/

namespace WeftWarp

open TwMCExecutor
open TwLoader (loadJson TwLoaded)

variable {F : Type}

/-! ### Traces -/

section Trace
variable {step step' : TwState F → TwCall F → Option (TwState F)}

/-- The states behind the calls, up to the first that fails. -/
def trace (step : TwState F → TwCall F → Option (TwState F)) : TwState F → List (TwCall F) → List (TwState F)
  | _, [] => []
  | s, c :: calls =>
    match step s c with
    | none => []
    | some next => next :: trace step next calls

theorem trace_cons_none {s : TwState F} {c : TwCall F} (fails : step s c = none) (calls : List (TwCall F)) :
    trace step s (c :: calls) = [] := by
  rw [trace, fails]

theorem trace_cons_some {s next : TwState F} {c : TwCall F} (applies : step s c = some next) (calls : List (TwCall F)) :
    trace step s (c :: calls) = next :: trace step next calls := by
  rw [trace, applies]

theorem trace_take (step : TwState F → TwCall F → Option (TwState F)) (s : TwState F) (calls : List (TwCall F)) (n : Nat) :
    trace step s (calls.take n) = (trace step s calls).take n := by
  induction calls generalizing s n with
  | nil => simp [trace]
  | cons c calls ih =>
    cases n with
    | zero => rfl
    | succ n =>
      rw [List.take_succ_cons]
      cases applied : step s c with
      | none => rw [trace_cons_none applied, trace_cons_none applied, List.take_nil]
      | some next => rw [trace_cons_some applied, trace_cons_some applied, ih, List.take_succ_cons]

theorem trace_congr {calls : List (TwCall F)} (same : ∀ c ∈ calls, ∀ s, step s c = step' s c) (s : TwState F) :
    trace step s calls = trace step' s calls := by
  induction calls generalizing s with
  | nil => rfl
  | cons c calls ih =>
    obtain ⟨head, tail⟩ := List.forall_mem_cons.mp same
    have rest := ih tail
    cases applied : step s c with
    | none => rw [trace_cons_none applied, trace_cons_none ((head s).symm.trans applied)]
    | some next => rw [trace_cons_some applied, trace_cons_some ((head s).symm.trans applied), rest]

end Trace

/-! ### Simulation -/

/-- One step of `tw_simulate`. -/
def simulateStep (d : TwDomain F) (s : TwState F) (c : TwCall F) : Option (TwState F) :=
  (d.actions.find? c.name).bind fun action => action s c.args

theorem simulateFrom_trace (d : TwDomain F) (i : Nat) (s : TwState F) (calls : List (TwCall F)) :
    (simulateFrom d i s calls).completedSteps = i + (trace (simulateStep d) s calls).length ∧
      (simulateFrom d i s calls).failStep =
        (if (trace (simulateStep d) s calls).length = calls.length then (-1 : Int)
          else i + (trace (simulateStep d) s calls).length) ∧
      (simulateFrom d i s calls).state = (trace (simulateStep d) s calls).getLastD s := by
  induction calls generalizing i s with
  | nil => simp [simulateFrom, trace]
  | cons c calls ih =>
    cases found : d.actions.find? c.name with
    | none =>
      have fails : simulateStep d s c = none := by rw [simulateStep, found]; rfl
      simp [simulateFrom, found, trace_cons_none fails]
    | some action =>
      cases applied : action s c.args with
      | none =>
        have fails : simulateStep d s c = none := by rw [simulateStep, found]; exact applied
        simp [simulateFrom, found, applied, trace_cons_none fails]
      | some next =>
        have applies : simulateStep d s c = some next := by rw [simulateStep, found]; exact applied
        obtain ⟨completed, failStep, state⟩ := ih (i + 1) next
        have goesOn : simulateFrom d i s (c :: calls) = simulateFrom d (i + 1) next calls := by
          simp [simulateFrom, found, applied]
        rw [goesOn, trace_cons_some applies, completed, failStep, state, List.length_cons, List.length_cons, List.getLastD_cons]
        refine ⟨by omega, ?_, rfl⟩
        by_cases whole : (trace (simulateStep d) next calls).length = calls.length
        · rw [if_pos whole, if_pos (congrArg (· + 1) whole)]
        · rw [if_neg whole, if_neg (fun eq => whole (Nat.succ.inj eq))]
          omega

theorem twSimulate_trace (d : TwDomain F) (s : TwState F) (calls : List (TwCall F)) :
    (twSimulate s calls d).completedSteps = (trace (simulateStep d) s calls).length ∧
      (twSimulate s calls d).failStep =
        (if (trace (simulateStep d) s calls).length = calls.length then (-1 : Int) else (trace (simulateStep d) s calls).length) ∧
      (twSimulate s calls d).state = (trace (simulateStep d) s calls).getLastD s := by
  simpa [twSimulate] using simulateFrom_trace d 0 s calls

/-- The state behind a step is the last one of the simulation up to it. -/
theorem state_twSimulate_take (d : TwDomain F) (s : TwState F) (calls : List (TwCall F)) {k : Nat}
    (inside : k < (trace (simulateStep d) s calls).length) :
    some (twSimulate s (calls.take (k + 1)) d).state = (trace (simulateStep d) s calls)[k]? := by
  rw [(twSimulate_trace d s (calls.take (k + 1))).2.2, trace_take]
  generalize trace (simulateStep d) s calls = states at inside ⊢
  rw [List.getLastD_eq_getLast?, List.getLast?_take, List.getElem?_eq_getElem inside]
  simp [List.getElem?_eq_getElem inside]

/-! ### Runs with certain success -/

section Runs
variable [CxxMath F] {d : TwDomain F} {probs : List F} {draw : Nat → F}

end Runs

/-! ### Items of a plan -/

/-- The item is a call of an action of the domain. -/
def Proper (d : TwDomain F) (item : TwValue F) : Prop := item.asArray ≠ [] ∧ d.hasAction (stepCall item).name = true

section Items
variable {d : TwDomain F} {s : TwState F} {item : TwValue F}

theorem applyAction_of_known {c : TwCall F} (known : d.hasAction c.name = true) : applyAction d s c = simulateStep d s c := by
  rw [TwDomain.hasAction, Option.isSome_iff_exists] at known
  obtain ⟨action, found⟩ := known
  rw [applyAction, simulateStep, found]
  rfl

end Items

/-! ### The executor -/

section Execute
variable [CxxMath F]

/-- The document loads, and none of its nodes draws a random number. -/
structure LoadsCalm (json : String) (loaded : TwLoaded F) : Prop where
  loads : loadJson json = .ok (some loaded)
  calm : Calm F json

theorem mcExecute_eq (draws : Int64 → Nat → F) (seed : Int64) {domainJson planJson probsJson : String} {loaded : TwLoaded F}
    {plan probs : TwValue F} (loads : loadJson domainJson = .ok (some loaded)) (planned : TwJson.parseJsonStr planJson = .ok plan)
    (given : TwJson.parseJsonStr probsJson = .ok probs) :
    mcExecute draws domainJson planJson probsJson seed =
      .ok (reportToJson (run loaded.domain (probs.asArray.map probability) (draws seed) 0 loaded.state plan.asArray)) := by
  rw [mcExecute, loads, planned, given]
  rfl

end Execute

/-- The generator that always draws 0. -/
def drawZero : Int64 → Nat → Int := fun _ _ => 0

end WeftWarp
