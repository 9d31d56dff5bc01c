import WeftWarp.Process
import WeftWarp.Theorems.SharedRefines

/-! # Calls do not remember

What a native function answers is a function of its arguments: neither the cache of documents nor the states that
earlier calls left behind show in it. -/

namespace WeftWarp

open Heap
open TwJson (Thrown)
open TwLoader (TwLoaded loadJson planToJson)
open Nif (NifError NifCall opened parsePlan)

variable {F : Type} [CxxMath F]

/-! ## Answers -/

/-- What the calls that plan get from the planner. -/
def planned (found : TwLoaded F) : Except NifError (List (TwCall F)) :=
  match twPlan found.state found.tasks found.domain [] with
  | .ok (some plan) => .ok plan
  | .ok none => .error (.runtimeError "no_plan")
  | .error e => .error (.thrown e)

/-- The temporal report on a plan. -/
def timed (found : TwLoaded F) (originIso : String) (plan : List (TwCall F)) : String :=
  twTemporalToJson (twCheckTemporal plan found.domain originIso) (planToJson plan)

/-- The report of the replanner. -/
def replanned (found : TwLoaded F) (step : Int) (plan : List (TwCall F)) : Except NifError String :=
  ((twReplan found.state plan found.tasks found.domain step).mapError .thrown).map fun rr =>
    twReplanToJson step rr (planToJson plan) (match rr.newPlan with
      | some plan => planToJson plan
      | none => "null")

/-- What a call answers, without a cache and without a heap. -/
def answer (F : Type) [CxxMath F] : NifCall → Except NifError String
  | .plan json => opened (F := F) json >>= fun found => (planned found).map planToJson
  | .replan json planJson failStep =>
    opened (F := F) json >>= fun found =>
      (parsePlan planJson).mapError .thrown >>= replanned found failStep.toInt32.toInt
  | .checkTemporal json planJson originIso =>
    opened (F := F) json >>= fun found => ((parsePlan planJson).mapError .thrown).map (timed found originIso)
  | .planWithTemporal json originIso =>
    opened (F := F) json >>= fun found => (planned found).map (timed found originIso)
  | .domainCacheClear => .ok "ok"

/-! ## Calls in a process -/

namespace Shared

variable {α β : Type} {pr : Process F}

/-- Every cached document is there as it loads. -/
def Sound (pr : Process F) : Prop :=
  ∀ json l, pr.domainCache.find? json = some l → LoadShows pr.heap (.ok l) (TwLoader.loadJson json)

/-- The call raises what `r` raises, or returns what corresponds to the result of `r`. It leaves the states in memory
    and the documents in the cache as they were. -/
structure Gives (R : List (Cell F) → α → β → Prop) (m : CallM F α) (pr : Process F) (r : Except NifError β) : Prop where
  sound : Sound (m.call pr).2
  grown : Extends Cell.state pr.heap (m.call pr).2.heap
  returns : ∀ b, r = .ok b → ∃ a, (m.call pr).1 = .ok a ∧ R (m.call pr).2.heap a b
  raises : ∀ e, r = .error e → (m.call pr).1 = .error e

variable {R : List (Cell F) → α → β → Prop}

theorem Gives.pure {a : α} {b : β} (sound : Sound pr) (related : R pr.heap a b) :
    Gives R (pure a : CallM F α) pr (.ok b) where
  sound := sound
  grown := .refl _
  returns b' same := by
    obtain rfl := Except.ok.inj same
    exact ⟨a, rfl, related⟩
  raises _ same := nomatch same

theorem Gives.throw {e : NifError} (sound : Sound pr) : Gives R (throw e : CallM F α) pr (.error e) where
  sound := sound
  grown := .refl _
  returns _ same := nomatch same
  raises e' same := by
    obtain rfl := Except.error.inj same
    rfl

variable {m : CallM F α} {r : Except NifError β}

theorem call_bind_ok {a : α} (f : α → CallM F β) (returned : (m.call pr).1 = .ok a) :
    (m >>= f).call pr = (f a).call (m.call pr).2 := by
  simp only [CallM.call, ExceptT.run_bind, StateT.run_bind] at returned ⊢
  generalize (m.run.run pr : Except NifError α × Process F) = out at returned ⊢
  obtain ⟨out, pr'⟩ := out
  obtain rfl := returned
  rfl

theorem call_bind_error {e : NifError} (f : α → CallM F β) (raised : (m.call pr).1 = .error e) :
    (m >>= f).call pr = (.error e, (m.call pr).2) := by
  simp only [CallM.call, ExceptT.run_bind, StateT.run_bind] at raised ⊢
  generalize (m.run.run pr : Except NifError α × Process F) = out at raised ⊢
  obtain ⟨out, pr'⟩ := out
  obtain rfl := raised
  rfl

theorem Gives.bind {γ δ : Type} {R' : List (Cell F) → γ → δ → Prop} {f : α → CallM F γ} {g : β → Except NifError δ}
    (first : Gives R m pr r)
    (next : ∀ a b pr', r = .ok b → Sound pr' → Extends Cell.state pr.heap pr'.heap → R pr'.heap a b →
      Gives R' (f a) pr' (g b)) : Gives R' (m >>= f) pr (r >>= g) := by
  obtain ⟨sound, grown, returns, raises⟩ := first
  cases r with
  | error e =>
    have stop := call_bind_error f (raises e rfl)
    refine ⟨?_, ?_, fun _ same => (nomatch same), fun e' same => ?_⟩
    · rwa [stop]
    · rwa [stop]
    · rw [stop, Except.error.inj same]
  | ok b =>
    obtain ⟨a, returned, related⟩ := returns b rfl
    have go := call_bind_ok f returned
    obtain ⟨sound', grown', returns', raises'⟩ := next a b _ rfl sound grown related
    refine ⟨?_, ?_, ?_, ?_⟩
    · rwa [go]
    · rw [go]
      exact grown.trans grown'
    · rwa [go]
    · rwa [go]

theorem Gives.afterGet {f : Process F → CallM F α} (next : Gives R (f pr) pr r) : Gives R (get >>= f) pr r :=
  ⟨next.sound, next.grown, next.returns, next.raises⟩

/-- Writing to the cache. -/
theorem Gives.afterModify {f : PUnit → CallM F α} {cache : OrderedMap String (Option (Loaded F))}
    {update : Process F → Process F} (updates : update pr = { pr with domainCache := cache })
    (next : Gives R (f ⟨⟩) { pr with domainCache := cache } r) : Gives R (modify update >>= f) pr r := by
  have run : (modify update >>= f).call pr = (f ⟨⟩).call (update pr) := rfl
  rw [updates] at run
  refine ⟨?_, ?_, ?_, ?_⟩ <;> rw [run]
  · exact next.sound
  · exact next.grown
  · exact next.returns
  · exact next.raises

theorem Sound.later {h : List (Cell F)} (sound : Sound pr) (grown : Extends Cell.state pr.heap h) :
    Sound { pr with heap := h } := by
  intro json l cached
  obtain ⟨l₀, loads, shows⟩ := sound json l cached
  refine ⟨l₀, loads, ?_⟩
  cases shows with
  | none => exact .none
  | some shows => exact .some (shows.later grown)

theorem onHeap_gives {m : HeapM F α} {a₀ : β} {Q : α → List (Cell F) → Prop} (sound : Sound pr)
    (yields : Yields Cell.state m pr.heap Q) (related : ∀ a h, Q a h → R h a a₀) :
    Gives R (onHeap m) pr (.ok a₀) where
  sound := sound.later yields.1
  grown := yields.1
  returns b same := by
    obtain rfl := Except.ok.inj same
    exact ⟨_, rfl, related _ _ yields.2⟩
  raises _ same := nomatch same

theorem raising_gives (sound : Sound pr) (r : Except Thrown α) :
    Gives (fun _ => Eq) (raising r : CallM F α) pr (r.mapError .thrown) := by
  cases r with
  | error e => exact .throw sound
  | ok a => exact .pure sound rfl

/-! ### Documents -/

/-- What `load_json` answers, as a call. -/
def loads (json : String) : Except NifError (Option (TwLoaded F)) := (TwLoader.loadJson json).mapError .thrown

theorem withCopy_gives {l : Option (Loaded F)} {l₀ : Option (TwLoaded F)} (sound : Sound pr)
    (shows : Option.Rel (Loaded.Shows pr.heap) l l₀) :
    Gives (fun h => Option.Rel (Loaded.Shows h)) (withCopy l) pr (.ok l₀) := by
  cases shows with
  | none => exact .pure sound .none
  | @some l l₀ shows =>
    have copies : Gives (fun h q s => Points Cell.state h q s) (onHeap (copy l.state)) pr (.ok l₀.state) :=
      onHeap_gives sound (copy_yields shows.state) fun _ _ copied => copied.1
    refine Gives.bind copies (g := fun _ => .ok (some l₀)) fun q s pr' same sound' _ points => ?_
    obtain rfl := Except.ok.inj same
    exact .pure sound' (.some { shows with state := points })

theorem sound_set {json : String} {l : Option (Loaded F)} (sound : Sound pr)
    (shows : LoadShows pr.heap (.ok l) (TwLoader.loadJson json)) :
    Sound { pr with domainCache := pr.domainCache.set json l } := by
  intro json' l' cached
  rw [OrderedMap.find?_set] at cached
  split at cached
  · rename_i same
    obtain rfl := Option.some.inj cached
    rwa [same]
  · exact sound json' l' cached

theorem loadCached_gives (sound : Sound pr) (json : String) :
    Gives (fun h => Option.Rel (Loaded.Shows h)) (loadCached json) pr (loads json) := by
  refine Gives.afterGet ?_
  cases cached : pr.domainCache.find? json with
  | some l =>
    obtain ⟨l₀, loaded, shows⟩ := sound json l cached
    rw [loads, loaded]
    exact withCopy_gives sound shows
  | none =>
    have opens : Gives (fun h r r₀ => LoadShows h r r₀ ∧ r₀ = TwLoader.loadJson json) (onHeap (loadJson json)) pr
        (.ok (TwLoader.loadJson json)) :=
      onHeap_gives sound (loadJson_yields json) fun _ _ shows => ⟨shows, rfl⟩
    refine Gives.bind opens (g := fun r => r.mapError .thrown) fun r r₀ pr' _ sound' _ shows => ?_
    obtain ⟨shows, rfl⟩ := shows
    cases r with
    | error e =>
      rw [shows]
      exact .throw sound'
    | ok l =>
      refine Gives.afterModify rfl ?_
      obtain ⟨l₀, loaded, parts⟩ := id shows
      rw [loaded]
      exact withCopy_gives (sound_set sound' shows) parts

theorem loaded_gives (sound : Sound pr) (json : String) : Gives Loaded.Shows (loaded json) pr (opened json) := by
  have same : opened (F := F) json = loads json >>= fun found =>
      found.elim (.error (.runtimeError "failed_to_load_domain")) .ok := by
    rw [opened, loads]
    rcases TwLoader.loadJson (F := F) json with e | _ | found <;> rfl
  rw [same]
  refine Gives.bind (loadCached_gives sound json) fun l l₀ pr' _ sound' _ shows => ?_
  cases shows with
  | none => exact .throw sound'
  | some shows => exact .pure sound' shows

/-! ### Entry points -/

section Calls
variable {l : Loaded F} {l₀ : TwLoaded F}

theorem twPlan_gives (sound : Sound pr) (shows : l.Shows pr.heap l₀) :
    Gives (fun _ => Eq) (onHeap (twPlan l.state l.tasks l.domain [])) pr
      (.ok (WeftWarp.twPlan l₀.state l₀.tasks l₀.domain [])) := by
  refine onHeap_gives sound (twPlan_returns l.tasks shows.state) fun r _ same => ?_
  rw [same, shows.tasks, shows.domain]

theorem twReplan_gives (sound : Sound pr) (shows : l.Shows pr.heap l₀) (plan : List (TwCall F)) (step : Int) :
    Gives (fun _ => Eq) (onHeap (twReplan l.state plan l.tasks l.domain step)) pr
      (.ok (WeftWarp.twReplan l₀.state plan l₀.tasks l₀.domain step)) := by
  refine onHeap_gives sound (twReplan_returns plan l.tasks step shows.state) fun r _ same => ?_
  rw [same, shows.tasks, shows.domain]

/-- The planner in the calls that plan. -/
theorem planned_gives (sound : Sound pr) (shows : l.Shows pr.heap l₀) (text : List (TwCall F) → String) :
    Gives (fun _ => Eq) (do
      match ← raising (← onHeap (twPlan l.state l.tasks l.domain [])) with
      | none => throw (.runtimeError "no_plan")
      | some plan => return text plan : CallM F String) pr ((planned l₀).map text) := by
  have same : (planned l₀).map text = .ok (WeftWarp.twPlan l₀.state l₀.tasks l₀.domain []) >>= fun r =>
      r.mapError .thrown >>= fun
        | none => .error (.runtimeError "no_plan")
        | some plan => .ok (text plan) := by
    rw [planned]
    rcases WeftWarp.twPlan l₀.state l₀.tasks l₀.domain [] with e | _ | plan <;> rfl
  rw [same]
  refine Gives.bind (twPlan_gives sound shows) fun r r₀ pr' _ sound' _ equal => ?_
  subst equal
  refine Gives.bind (raising_gives sound' r) fun found found₀ pr'' _ sound'' _ equal => ?_
  subst equal
  cases found with
  | none => exact .throw sound''
  | some plan => exact .pure sound'' rfl

theorem replanned_gives (sound : Sound pr) (shows : l.Shows pr.heap l₀) (plan : List (TwCall F)) (step : Int) :
    Gives (fun _ => Eq) (do
      let rr ← raising (← onHeap (twReplan l.state plan l.tasks l.domain step))
      return twReplanToJson step rr (planToJson plan) (match rr.newPlan with
        | some plan => planToJson plan
        | none => "null") : CallM F String) pr (replanned l₀ step plan) := by
  have same : replanned l₀ step plan = .ok (WeftWarp.twReplan l₀.state plan l₀.tasks l₀.domain step) >>= fun r =>
      r.mapError .thrown >>= fun rr => .ok (twReplanToJson step rr (planToJson plan) (match rr.newPlan with
        | some plan => planToJson plan
        | none => "null")) := by
    rw [replanned]
    cases WeftWarp.twReplan l₀.state plan l₀.tasks l₀.domain step <;> rfl
  rw [same]
  refine Gives.bind (twReplan_gives sound shows plan step) fun r _ pr' _ sound' _ equal => ?_
  subst equal
  refine Gives.bind (raising_gives sound' r) fun rr _ pr'' _ sound'' _ equal => ?_
  subst equal
  exact .pure sound'' rfl

theorem rest_gives {call : NifCall} {json : String} {rest : Loaded F → CallM F String}
    (document : entry call = some (json, rest)) (sound : Sound pr) (opens : opened json = .ok l₀)
    (shows : l.Shows pr.heap l₀) :
    Gives (fun _ => Eq) (rest l) pr (answer F call) := by
  cases call with
  | plan _ =>
    cases document
    rw [answer, opens]
    exact planned_gives sound shows _
  | replan _ planJson failStep =>
    cases document
    rw [answer, opens]
    change Gives _ _ _ ((parsePlan planJson).mapError .thrown >>= replanned l₀ failStep.toInt32.toInt)
    refine Gives.bind (raising_gives sound (parsePlan planJson)) fun plan _ pr' _ sound' grown equal => ?_
    subst equal
    exact replanned_gives sound' (shows.later grown) plan _
  | checkTemporal _ planJson originIso =>
    cases document
    rw [answer, opens]
    refine Gives.bind (raising_gives sound (parsePlan planJson)) (g := fun plan => .ok (timed l₀ originIso plan))
      fun plan _ pr' _ sound' _ equal => ?_
    subst equal
    rw [timed, ← shows.domain]
    exact .pure sound' rfl
  | planWithTemporal _ originIso =>
    cases document
    have text : timed l₀ originIso = fun plan =>
        twTemporalToJson (twCheckTemporal plan l.domain.view originIso) (planToJson plan) := by
      rw [shows.domain]
      rfl
    rw [answer, opens]
    change Gives _ _ _ ((planned l₀).map (timed l₀ originIso))
    rw [text]
    exact planned_gives sound shows _
  | domainCacheClear => cases document

theorem answer_eq_error {call : NifCall} {json : String} {rest : Loaded F → CallM F String}
    (document : entry call = some (json, rest)) {e : NifError} (opens : opened (F := F) json = .error e) :
    answer F call = .error e := by
  cases call with
  | domainCacheClear => cases document
  | _ =>
    cases document
    rw [answer, opens]
    rfl

theorem run_gives (sound : Sound pr) (call : NifCall) : Gives (fun _ => Eq) (run call) pr (answer F call) := by
  rw [run]
  cases document : entry (F := F) call with
  | none =>
    cases call with
    | domainCacheClear =>
      have empty : Sound { pr with domainCache := .empty } := fun _ _ cached => nomatch cached
      exact Gives.afterModify rfl (.pure empty rfl)
    | _ => cases document
  | some found =>
    obtain ⟨json, rest⟩ := found
    have same : answer F call = opened (F := F) json >>= fun _ => answer F call := by
      cases opens : opened (F := F) json with
      | error e => exact answer_eq_error document opens
      | ok l₀ => rfl
    rw [same]
    refine Gives.bind (loaded_gives sound json) fun l l₀ pr' opens sound' _ shows => ?_
    exact rest_gives document sound' opens shows

end Calls

/-! ## Histories -/

theorem sound_fresh : Sound (Process.fresh : Process F) := fun _ _ cached => nomatch cached

theorem sound_after (history : List NifCall) (sound : Sound pr) : Sound (pr.after history) := by
  induction history generalizing pr with
  | nil => exact sound
  | cons call history ih => exact ih (run_gives sound call).sound

theorem Gives.eq_answer {m : CallM F String} {r : Except NifError String} (gives : Gives (fun _ => Eq) m pr r) :
    (m.call pr).1 = r := by
  cases outcome : r with
  | error e => exact gives.raises e outcome
  | ok text =>
    obtain ⟨a, returned, rfl⟩ := gives.returns text outcome
    exact returned

theorem run_answer (sound : Sound pr) (call : NifCall) : ((run call).call pr).1 = answer F call :=
  (run_gives sound call).eq_answer

/-- A call returns or raises after any calls what it does in a fresh process, and the initial state of a cached
    document stays as it was loaded. -/
theorem calls_independent_of_history (history : List NifCall) (call : NifCall) :
    ((run call).call ((Process.fresh : Process F).after history)).1 = ((run call).call (Process.fresh : Process F)).1 ∧
      ∀ json l, ((Process.fresh : Process F).after history).domainCache.find? json = some (some l) →
        ∃ before after, ((Process.fresh : Process F).after history).heap[l.state]? = some before ∧
          ((run call).call ((Process.fresh : Process F).after history)).2.heap[l.state]? = some after ∧
          after.state = before.state := by
  have sound : Sound ((Process.fresh : Process F).after history) := sound_after history sound_fresh
  refine ⟨(run_answer sound call).trans (run_answer sound_fresh call).symm, fun json l cached => ?_⟩
  obtain ⟨l₀, -, shows⟩ := sound json (some l) cached
  cases shows with
  | some shows =>
    obtain ⟨before, found, same⟩ := shows.state.cell
    obtain ⟨after, found', same'⟩ := ((run_gives sound call).grown _ _ shows.state).cell
    exact ⟨before, after, found, found', same'.trans same.symm⟩

end Shared
end WeftWarp
