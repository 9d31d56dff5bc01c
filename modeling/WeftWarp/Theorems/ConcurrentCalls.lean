import WeftWarp.Theorems.Footprints
import WeftWarp.Theorems.NifHistory
import WeftWarp.Threads

/-! # Calls do not disturb each other

In whatever order the pieces of calls follow each other, every call answers as it does alone in a fresh process. No
call ever writes to a state that another call or the cache has a pointer to. -/

namespace WeftWarp
namespace Shared

open Heap
open Nif (NifError NifCall opened)
open TwLoader (TwLoaded)

variable {F : Type} [CxxMath F] {pr : Process F} {call : NifCall} {json : String} {rest : Loaded F → CallM F String}

/-- What a call has so far is what it would have alone. -/
def Stage.Faithful (heap : List (Cell F)) (call : NifCall) : Stage F → Prop
  | .called | .missed => True
  | .parsed l | .inserted l | .opened l =>
    ∀ json rest, entry (F := F) call = some (json, rest) → LoadShows heap (.ok l) (TwLoader.loadJson json)
  | .ended result => result = answer F call

theorem LoadShows.later {heap heap' : List (Cell F)} {l : Option (Loaded F)}
    (loads : LoadShows heap (.ok l) (TwLoader.loadJson json)) (grown : Extends Cell.state heap heap') :
    LoadShows heap' (.ok l) (TwLoader.loadJson json) := by
  obtain ⟨l₀, loaded, shows⟩ := loads
  refine ⟨l₀, loaded, ?_⟩
  cases shows with
  | none => exact .none
  | some shows => exact .some (shows.later grown)

variable {stage : Stage F} {sys : System F}

theorem Stage.Faithful.later {heap heap' : List (Cell F)} (faithful : stage.Faithful heap call)
    (grown : Extends Cell.state heap heap') : stage.Faithful heap' call := by
  cases stage with
  | called | missed => trivial
  | parsed | inserted | opened => exact fun json rest document => (faithful json rest document).later grown
  | ended => exact faithful

/-- What a piece of a call leaves: the documents of the cache and the states as they were, and a faithful stage. -/
structure Kept (pr : Process F) (call : NifCall) (out : Stage F × Process F) : Prop where
  sound : Sound out.2
  grown : Extends Cell.state pr.heap out.2.heap
  faithful : out.1.Faithful out.2.heap call

section Pieces
variable (document : entry call = some (json, rest)) (sound : Sound pr)
include document

variable {l : Option (Loaded F)}

/-- A call has no other document. -/
theorem loads_document {heap : List (Cell F)} (loads : LoadShows heap (.ok l) (TwLoader.loadJson json))
    (json' : String) (rest' : Loaded F → CallM F String) (document' : entry call = some (json', rest')) :
    LoadShows heap (.ok l) (TwLoader.loadJson json') := by
  obtain ⟨rfl, -⟩ := Prod.mk.inj (Option.some.inj (document.symm.trans document'))
  exact loads

include sound

theorem copied_kept (loads : LoadShows pr.heap (.ok l) (TwLoader.loadJson json)) : Kept pr call (copied pr l) := by
  obtain ⟨l₀, loaded, shows⟩ := loads
  cases shows with
  | none => exact ⟨sound, .refl _, loads_document document ⟨none, loaded, .none⟩⟩
  | @some l l₀ shows =>
    obtain ⟨grown, points⟩ := copy_yields shows.state
    refine ⟨sound.later grown, grown, loads_document document ?_⟩
    exact ⟨some l₀, loaded, .some { shows with state := points.1 }⟩

theorem parse_kept : Kept pr call (advance json rest pr .missed) := by
  obtain ⟨grown, shows⟩ := loadJson_yields (h := pr.heap) json
  rw [advance]
  generalize (loadJson json).run pr.heap = out at grown shows ⊢
  obtain ⟨result, heap⟩ := out
  cases result with
  | error e =>
    refine ⟨sound.later grown, grown, ?_⟩
    have opens : opened (F := F) json = .error (.thrown e) := by rw [opened, shows]
    exact (answer_eq_error document opens).symm
  | ok l => exact ⟨sound.later grown, grown, loads_document document shows⟩

theorem emplace_kept (loads : LoadShows pr.heap (.ok l) (TwLoader.loadJson json)) :
    Kept pr call (.inserted l, emplace pr json l) := by
  have faithful : (Stage.inserted l).Faithful pr.heap call := loads_document document loads
  rw [emplace]
  cases pr.domainCache.find? json with
  | some _ => exact ⟨sound, .refl _, faithful⟩
  | none => exact ⟨sound_set sound loads, .refl _, faithful⟩

theorem finish_kept (loads : LoadShows pr.heap (.ok l) (TwLoader.loadJson json)) :
    Kept pr call (advance json rest pr (.opened l)) := by
  obtain ⟨l₀, loaded, shows⟩ := loads
  cases shows with
  | none =>
    have opens : opened (F := F) json = .error (.runtimeError "failed_to_load_domain") := by rw [opened, loaded]
    exact ⟨sound, .refl _, (answer_eq_error document opens).symm⟩
  | @some l l₀ shows =>
    have opens : opened json = .ok l₀ := by rw [opened, loaded]
    have gives := rest_gives document sound opens shows
    exact ⟨gives.sound, gives.grown, gives.eq_answer⟩

theorem advance_kept {stage : Stage F} (faithful : stage.Faithful pr.heap call) :
    Kept pr call (advance json rest pr stage) := by
  cases stage with
  | called =>
    rw [advance]
    cases cached : pr.domainCache.find? json with
    | none => exact ⟨sound, .refl _, trivial⟩
    | some l => exact copied_kept document sound (sound json l cached)
  | missed => exact parse_kept document sound
  | parsed l => exact emplace_kept document sound (faithful json rest document)
  | inserted l => exact copied_kept document sound (faithful json rest document)
  | opened l => exact finish_kept document sound (faithful json rest document)
  | ended result => exact ⟨sound, .refl _, faithful⟩

end Pieces

/-- Everything in the system is as it would be alone. -/
structure System.Faithful (sys : System F) : Prop where
  sound : Sound sys.process
  calls : ∀ c ∈ sys.calls, c.2.Faithful sys.process.heap c.1

theorem System.Faithful.set (faithful : sys.Faithful) {i : Nat} {out : Stage F × Process F}
    (kept : Kept sys.process call out) : System.Faithful ⟨out.2, sys.calls.set i (call, out.1)⟩ := by
  refine ⟨kept.sound, fun c mem => ?_⟩
  rcases List.mem_or_eq_of_mem_set mem with old | rfl
  · exact (faithful.calls c old).later kept.grown
  · exact kept.faithful

theorem System.Faithful.step {sys' : System F} {piece : Option Piece} (step : Steps sys piece sys')
    (faithful : sys.Faithful) : sys'.Faithful := by
  cases step with
  | start call =>
    refine ⟨faithful.sound, fun c mem => ?_⟩
    rcases List.mem_append.mp mem with old | new
    · exact faithful.calls c old
    · rw [List.mem_singleton.mp new]
      trivial
  | clear at_ =>
    have empty : Sound (domainCacheClear.call sys.process).2 := fun _ _ cached => nomatch cached
    have kept : Kept sys.process .domainCacheClear
        (.ended (domainCacheClear.call sys.process).1, (domainCacheClear.call sys.process).2) := ⟨empty, .refl _, rfl⟩
    exact faithful.set kept
  | advance at_ document =>
    have mem := List.mem_of_getElem? at_
    exact faithful.set (advance_kept document faithful.sound (faithful.calls _ mem))

/-- No node of the document of the call draws a random number. -/
def Reproducible (F : Type) [CxxMath F] (call : NifCall) : Prop :=
  ∀ json rest, entry (F := F) call = some (json, rest) → Calm F json

/-- A call that has ended among any others, at whatever points the cache was cleared, has answered what it answers alone
    in a fresh process; and what is cached is what loading gives. -/
theorem concurrent_calls_answer_alone {pieces : List Piece} {sys : System F} (run : Run Steps .fresh pieces sys) :
    (∀ call result, Reproducible F call → (call, .ended result) ∈ sys.calls →
      result = ((Shared.run call).call (Process.fresh : Process F)).1) ∧
    ∀ json l, sys.process.domainCache.find? json = some l →
      LoadShows sys.process.heap (.ok l) (TwLoader.loadJson json) := by
  have faithful : sys.Faithful :=
    run.invariant (fun _ _ _ step before => before.step step) ⟨sound_fresh, List.forall_mem_nil _⟩
  refine ⟨fun call result _ mem => ?_, faithful.sound⟩
  rw [run_answer sound_fresh]
  exact faithful.calls _ mem

/-! ### A race -/

/-- A task whose method performs an action. -/
def taskDocument : String :=
  "\x7b\"actions\":\x7b\"a\":\x7b\x7d\x7d,\"methods\":\x7b\"t\":\x7b\"alternatives\":[\x7b\"subtasks\":[[\"a\"]]\x7d]\x7d\x7d,\"todo_list\":[[\"t\"]]\x7d"

/-- The document as it is parsed. -/
def taskData : TwValue Int :=
  .dict [("actions", .dict [("a", .dict [])]),
    ("methods", .dict [("t", .dict [("alternatives", .array [.dict [("subtasks", .array [.array [.string "a"]])]])])]),
    ("todo_list", .array [.array [.string "t"]])]

theorem parse_taskDocument : TwJson.parseJsonStr taskDocument = .ok taskData := by decide +kernel

/-- Two calls both miss the document, and the cache is cleared between their insertions; then both have their copies. -/
def racing : List Piece :=
  [.start (.plan taskDocument), .start (.plan taskDocument), .start .domainCacheClear, .advance 0, .advance 1, .advance 0,
    .advance 0, .advance 2, .advance 1, .advance 1, .advance 0, .advance 1]

theorem advance_missed (rest : Loaded F → CallM F String) {l₀ : TwLoaded F}
    (loads : TwLoader.loadJson json = .ok (some l₀)) (pr : Process F) :
    ∃ l heap, advance json rest pr .missed = (.parsed (some l), { pr with heap }) := by
  obtain ⟨-, shows⟩ := loadJson_yields (h := pr.heap) json
  rw [advance]
  generalize (loadJson json).run pr.heap = out at shows ⊢
  obtain ⟨result, heap⟩ := out
  rw [loads] at shows
  cases result with
  | error e => cases shows
  | ok l =>
    obtain ⟨_, same, shows⟩ := shows
    cases same
    cases shows
    exact ⟨_, _, rfl⟩

theorem steps_advance {i : Nat} {out : Stage F × Process F} (at_ : sys.calls[i]? = some (call, stage))
    (document : entry call = some (json, rest)) (advances : advance json rest sys.process stage = out) :
    Steps sys (some (.advance i)) ⟨out.2, sys.calls.set i (call, out.1)⟩ :=
  advances ▸ .advance at_ document

theorem racing_run : ∃ (sys : System Int) (l l' : Loaded Int), Run Steps .fresh racing sys ∧
    sys.calls = [(.plan taskDocument, .opened (some l)), (.plan taskDocument, .opened (some l')),
      (.domainCacheClear, .ended (.ok "ok"))] := by
  obtain ⟨l₀, loads⟩ : ∃ l₀, TwLoader.loadJson (F := Int) taskDocument = .ok (some l₀) :=
    ⟨_, by rw [TwLoader.loadJson, parse_taskDocument]; rfl⟩
  obtain ⟨rest, document⟩ : ∃ rest, entry (F := Int) (.plan taskDocument) = some (taskDocument, rest) := ⟨_, rfl⟩
  obtain ⟨l, heap, first⟩ := advance_missed rest loads .fresh
  obtain ⟨l', heap', second⟩ := advance_missed rest loads ⟨heap, .empty⟩
  exact ⟨_, _, _, .label (.start _) <| .label (.start _) <| .label (.start _) <|
    .label (steps_advance rfl document rfl) <| .label (steps_advance rfl document rfl) <|
    .label (steps_advance rfl document first) <| .label (steps_advance rfl document rfl) <| .label (.clear rfl) <|
    .label (steps_advance rfl document second) <| .label (steps_advance rfl document rfl) <|
    .label (steps_advance rfl document rfl) <| .label (steps_advance rfl document rfl) (.refl _), rfl⟩

/-- The first of the two calls answers its plan. -/
theorem concurrent_calls_answer_alone_race :
    ∃ sys : System Int, Run Steps .fresh (racing ++ [.advance 0]) sys ∧
      (.plan taskDocument, .ended (.ok "[[\"a\"]]")) ∈ sys.calls := by
  obtain ⟨sys, l, l', run, calls⟩ := racing_run
  have at_ : sys.calls[0]? = some (.plan taskDocument, .opened (some l)) := by
    rw [calls]
    rfl
  obtain ⟨rest, document⟩ : ∃ rest, entry (F := Int) (.plan taskDocument) = some (taskDocument, rest) := ⟨_, rfl⟩
  have run' := run.trans (.label (.advance at_ document) (.refl _))
  have mem : (.plan taskDocument, .ended ((rest l).call sys.process).1) ∈
      sys.calls.set 0 (.plan taskDocument, (advance taskDocument rest sys.process (.opened (some l))).1) := by
    rw [calls]
    exact .head _
  have calm : Reproducible Int (.plan taskDocument) := by
    rintro json rest' document'
    obtain ⟨rfl, -⟩ := Prod.mk.inj (Option.some.inj (document.symm.trans document'))
    exact calm_of_parse parse_taskDocument (by decide +kernel)
  have answers : answer Int (.plan taskDocument) = .ok "[[\"a\"]]" := by
    rw [answer, opened, TwLoader.loadJson, parse_taskDocument]
    decide +kernel
  have alone := (concurrent_calls_answer_alone run').1 _ _ calm mem
  rw [run_answer sound_fresh, answers] at alone
  exact ⟨_, run', alone ▸ mem⟩

/-! ### Own states -/

/-- The state that a call works on once it has its document. -/
def Stage.own : Stage F → Option Ref
  | .opened (some l) => some l.state
  | _ => none

/-- The state of a document that a call has parsed for the cache. -/
def Stage.lent : Stage F → Option Ref
  | .parsed (some l) | .inserted (some l) => some l.state
  | _ => none

/-- The state at `p` belongs to a document of the cache. -/
def Process.Caches (pr : Process F) (p : Ref) : Prop :=
  ∃ json l, pr.domainCache.find? json = some (some l) ∧ l.state = p

/-- The process behind a piece that may write to the state `own`: other states are as they were. -/
structure Writes (own : Option Ref) (pr pr' : Process F) : Prop where
  longer : pr.heap.length ≤ pr'.heap.length
  same : ∀ q < pr.heap.length, own ≠ some q → pr'.heap[q]? = pr.heap[q]?

namespace Writes
variable {own : Option Ref} {pr' pr'' : Process F}

theorem refl (own : Option Ref) (pr : Process F) : Writes own pr pr := ⟨Nat.le_refl _, fun _ _ _ => rfl⟩

/-- A program that writes to its own cells. -/
theorem of_keeps {α : Type} {m : HeapM F α} {Q : α → Prop}
    (keeps : Keeps (fun q => own = some q ∨ pr.heap.length ≤ q) m Q) :
    Writes own pr { pr with heap := (m.run pr.heap).2 } ∧ Q (m.run pr.heap).1 := by
  obtain ⟨same, longer, holds⟩ := keeps pr.heap fun _ => .inr
  refine ⟨⟨longer, fun q inside foreign => same q ?_⟩, holds⟩
  rintro (mine | beyond)
  · exact foreign mine
  · exact absurd inside (Nat.not_lt.mpr beyond)

end Writes

theorem call_raising_onHeap {α : Type} (m : HeapM F (Except TwJson.Thrown α)) {f : α → CallM F String}
    (pure_ : ∀ a pr, ((f a).call pr).2 = pr) (pr : Process F) :
    ((onHeap m >>= fun r => raising r >>= f).call pr).2 = { pr with heap := (m.run pr.heap).2 } := by
  have first : (onHeap m).call pr = (.ok (m.run pr.heap).1, { pr with heap := (m.run pr.heap).2 }) := rfl
  rw [call_bind_ok _ (congrArg Prod.fst first), first]
  generalize m.run pr.heap = out
  obtain ⟨r, heap⟩ := out
  cases r with
  | error e => rfl
  | ok a => exact pure_ a _

theorem raising_ok_bind {α : Type} (a : α) (f : α → CallM F String) : raising (.ok a) >>= f = f a := rfl

theorem rest_writes (document : entry call = some (json, rest)) (l : Loaded F) (pr : Process F) :
    Writes (some l.state) pr ((rest l).call pr).2 ∧ ((rest l).call pr).2.domainCache = pr.domainCache := by
  have plans : Writes (some l.state) pr { pr with heap := ((twPlan l.state l.tasks l.domain []).run pr.heap).2 } :=
    (Writes.of_keeps (twPlan_keeps (.inl rfl) l.tasks)).1
  cases call with
  | plan _ =>
    cases document
    rw [call_raising_onHeap]
    · exact ⟨plans, rfl⟩
    · intro found pr
      cases found <;> rfl
  | replan _ planJson failStep =>
    cases document
    dsimp only
    cases parsed : Nif.parsePlan (F := F) planJson with
    | error e => exact ⟨.refl _ _, rfl⟩
    | ok plan =>
      have replans : Writes (some l.state) pr
          { pr with heap := ((twReplan l.state plan l.tasks l.domain failStep.toInt32.toInt).run pr.heap).2 } :=
        (Writes.of_keeps (twReplan_keeps l.state plan l.tasks failStep.toInt32.toInt)).1
      rw [raising_ok_bind, call_raising_onHeap]
      · exact ⟨replans, rfl⟩
      · exact fun _ _ => rfl
  | checkTemporal _ planJson originIso =>
    cases document
    dsimp only
    cases Nif.parsePlan (F := F) planJson <;> exact ⟨.refl _ _, rfl⟩
  | planWithTemporal _ originIso =>
    cases document
    rw [call_raising_onHeap]
    · exact ⟨plans, rfl⟩
    · intro found pr
      cases found <;> rfl
  | domainCacheClear => cases document

/-- What a piece of a call does to the memory: it writes to the state that it owns, a state that it gets is new, and only
    what it has parsed goes to the cache. -/
structure Confined (pr : Process F) (stage : Stage F) (out : Stage F × Process F) : Prop where
  writes : Writes stage.own pr out.2
  own : ∀ p, out.1.own = some p → pr.heap.length ≤ p ∧ p < out.2.heap.length
  lent : ∀ p, out.1.lent = some p → stage.lent = some p ∨ pr.heap.length ≤ p ∧ p < out.2.heap.length
  caches : ∀ p, out.2.Caches p → pr.Caches p ∨ stage.lent = some p

theorem copied_confined (stage : Stage F) (l : Option (Loaded F)) : Confined pr stage (copied pr l) := by
  cases l with
  | none => exact ⟨.refl _ _, nofun, nofun, fun _ => .inl⟩
  | some l =>
    refine ⟨(Writes.of_keeps (copy_keeps l.state)).1, fun p same => ?_, nofun, fun _ => .inl⟩
    obtain rfl := Option.some.inj same
    have grown : (copied pr (some l)).2.heap = pr.heap ++ [_] := rfl
    rw [grown, List.length_append]
    exact ⟨Nat.le_refl _, Nat.lt_succ_self _⟩

theorem parse_confined (json : String) (rest : Loaded F → CallM F String) :
    Confined pr .missed (advance json rest pr .missed) := by
  obtain ⟨writes, fresh⟩ : Writes none pr { pr with heap := ((loadJson json).run pr.heap).2 } ∧ _ :=
    Writes.of_keeps (loadJson_keeps json)
  obtain ⟨-, shows⟩ := loadJson_yields (h := pr.heap) json
  rw [advance]
  generalize (loadJson json).run pr.heap = out at writes fresh shows ⊢
  obtain ⟨result, heap⟩ := out
  rcases result with e | _ | l
  · exact ⟨writes, nofun, nofun, fun _ => .inl⟩
  · exact ⟨writes, nofun, nofun, fun _ => .inl⟩
  · refine ⟨writes, nofun, fun p same => .inr ?_, fun _ => .inl⟩
    obtain rfl := Option.some.inj same
    obtain ⟨l₀, -, shows⟩ := shows
    cases shows with
    | some shows =>
      rcases fresh l rfl with foreign | beyond
      · cases foreign
      · exact ⟨beyond, shows.state.lt⟩

theorem emplace_confined (json : String) (l : Option (Loaded F)) :
    Confined pr (.parsed l) (.inserted l, emplace pr json l) := by
  have lent (p : Ref) (same : (Stage.inserted l).lent = some p) : (Stage.parsed l).lent = some p := by
    cases l with
    | none => cases same
    | some l => exact same
  rw [emplace]
  cases pr.domainCache.find? json with
  | some _ => exact ⟨.refl _ _, nofun, fun p same => .inl (lent p same), fun _ => .inl⟩
  | none =>
    refine ⟨⟨Nat.le_refl _, fun _ _ _ => rfl⟩, nofun, fun p same => .inl (lent p same), ?_⟩
    rintro p ⟨json', l', cached, rfl⟩
    rw [OrderedMap.find?_set] at cached
    split at cached
    · obtain rfl := Option.some.inj cached
      exact .inr rfl
    · exact .inl ⟨json', l', cached, rfl⟩

theorem advance_confined (document : entry call = some (json, rest)) (stage : Stage F) :
    Confined pr stage (advance json rest pr stage) := by
  cases stage with
  | called =>
    rw [advance]
    cases pr.domainCache.find? json with
    | none => exact ⟨.refl _ _, nofun, nofun, fun _ => .inl⟩
    | some l => exact copied_confined .called l
  | missed => exact parse_confined json rest
  | parsed l => exact emplace_confined json l
  | inserted l => exact copied_confined (.inserted l) l
  | opened l =>
    cases l with
    | none => exact ⟨.refl _ _, nofun, nofun, fun _ => .inl⟩
    | some l =>
      obtain ⟨writes, cache⟩ := rest_writes document l pr
      refine ⟨writes, nofun, nofun, ?_⟩
      rintro p ⟨json', l', cached, same⟩
      exact .inl ⟨json', l', cache ▸ cached, same⟩
  | ended result => exact ⟨.refl _ _, nofun, nofun, fun _ => .inl⟩

theorem clear_confined (pr : Process F) :
    Confined pr .called (.ended (domainCacheClear.call pr).1, (domainCacheClear.call pr).2) := by
  refine ⟨⟨Nat.le_refl _, fun _ _ _ => rfl⟩, nofun, nofun, ?_⟩
  rintro p ⟨json, l, cached, -⟩
  cases cached

theorem Stage.lent_of_own {p : Ref} (own : stage.own = some p) : stage.lent = none := by
  cases stage with
  | opened l => rfl
  | _ => cases own

namespace System
variable {sys sys' : System F} {i j : Nat} {p : Ref}

/-- The call works on the state behind the pointer. -/
def Owns (sys : System F) (i : Nat) (p : Ref) : Prop := ∃ c, sys.calls[i]? = some c ∧ c.2.own = some p

/-- The state behind the pointer is in the cache, or a call has parsed it for the cache. -/
def Offers (sys : System F) (p : Ref) : Prop :=
  sys.process.Caches p ∨ ∃ (i : Nat) (c : NifCall × Stage F), sys.calls[i]? = some c ∧ c.2.lent = some p

/-- Every pointer leads to a state, and a state that a call works on is nobody else's. -/
structure Isolated (sys : System F) : Prop where
  own_lt : ∀ {i p}, sys.Owns i p → p < sys.process.heap.length
  offer_lt : ∀ {p}, sys.Offers p → p < sys.process.heap.length
  own_own : ∀ {i j p}, sys.Owns i p → sys.Owns j p → i = j
  own_offer : ∀ {i p}, sys.Owns i p → ¬ sys.Offers p

theorem find_set {c : NifCall × Stage F} {f : Stage F → Option Ref} {stage : Stage F}
    (found : (sys.calls.set i (call, stage))[j]? = some c) (points : f c.2 = some p) :
    j = i ∧ f stage = some p ∨ j ≠ i ∧ ∃ c, sys.calls[j]? = some c ∧ f c.2 = some p := by
  rw [List.getElem?_set] at found
  split at found
  · rename_i same
    split at found
    · obtain rfl := Option.some.inj found
      exact .inl ⟨same.symm, points⟩
    · cases found
  · rename_i other
    exact .inr ⟨Ne.symm other, c, found, points⟩

section Set
variable {stage : Stage F} (at_ : sys.calls[i]? = some (call, stage)) {out : Stage F × Process F}
  (confined : Confined sys.process stage out)

theorem owns_set (owns : Owns ⟨out.2, sys.calls.set i (call, out.1)⟩ j p) :
    j = i ∧ out.1.own = some p ∨ j ≠ i ∧ sys.Owns j p := by
  obtain ⟨c, found, points⟩ := owns
  exact find_set found points

include at_ confined

/-- What is offered behind a piece was offered before, or it is new and the call of the piece has parsed it. -/
theorem offers_set (offers : Offers ⟨out.2, sys.calls.set i (call, out.1)⟩ p) :
    sys.Offers p ∨ sys.process.heap.length ≤ p ∧ p < out.2.heap.length ∧ out.1.lent = some p := by
  have lent (same : stage.lent = some p) : sys.Offers p := .inr ⟨i, (call, stage), at_, same⟩
  rcases offers with cached | ⟨j, c, found, points⟩
  · rcases confined.caches p cached with before | parsed
    · exact .inl (.inl before)
    · exact .inl (lent parsed)
  · rcases find_set found points with ⟨-, mine⟩ | ⟨-, c, before, points⟩
    · rcases confined.lent p mine with before | ⟨new, inside⟩
      · exact .inl (lent before)
      · exact .inr ⟨new, inside, mine⟩
    · exact .inl (.inr ⟨j, c, before, points⟩)

theorem Isolated.set (isolated : sys.Isolated) : Isolated ⟨out.2, sys.calls.set i (call, out.1)⟩ := by
  have longer := confined.writes.longer
  refine ⟨fun owns => ?_, fun offers => ?_, fun owns owns' => ?_, fun owns offers => ?_⟩
  · rcases owns_set owns with ⟨-, mine⟩ | ⟨-, before⟩
    · exact (confined.own _ mine).2
    · exact Nat.lt_of_lt_of_le (isolated.own_lt before) longer
  · rcases offers_set at_ confined offers with before | ⟨-, inside, -⟩
    · exact Nat.lt_of_lt_of_le (isolated.offer_lt before) longer
    · exact inside
  · -- A state that the call of the piece gets is new, so nobody else has it.
    rcases owns_set owns with ⟨rfl, mine⟩ | ⟨-, before⟩
    · rcases owns_set owns' with ⟨rfl, -⟩ | ⟨-, before'⟩
      · rfl
      · exact absurd (isolated.own_lt before') (Nat.not_lt.mpr (confined.own _ mine).1)
    · rcases owns_set owns' with ⟨rfl, mine'⟩ | ⟨-, before'⟩
      · exact absurd (isolated.own_lt before) (Nat.not_lt.mpr (confined.own _ mine').1)
      · exact isolated.own_own before before'
  · rcases owns_set owns with ⟨-, mine⟩ | ⟨-, before⟩
    · rcases offers_set at_ confined offers with before' | ⟨-, -, parsed⟩
      · exact absurd (isolated.offer_lt before') (Nat.not_lt.mpr (confined.own _ mine).1)
      · rw [Stage.lent_of_own mine] at parsed
        cases parsed
    · rcases offers_set at_ confined offers with before' | ⟨new, -, -⟩
      · exact isolated.own_offer before before'
      · exact absurd (isolated.own_lt before) (Nat.not_lt.mpr new)

end Set

theorem Isolated.start (isolated : sys.Isolated) (call : NifCall) :
    Isolated { sys with calls := sys.calls ++ [(call, .called)] } := by
  have find {j : Nat} {c : NifCall × Stage F} {f : Stage F → Option Ref} {p : Ref} (none : f .called = none)
      (found : (sys.calls ++ [(call, .called)])[j]? = some c) (points : f c.2 = some p) : sys.calls[j]? = some c := by
    rw [List.getElem?_append] at found
    split at found
    · exact found
    · have mem := List.mem_of_getElem? found
      rw [List.mem_singleton.mp mem, none] at points
      cases points
  have owns {j : Nat} {p : Ref} (owns : Owns { sys with calls := sys.calls ++ [(call, .called)] } j p) :
      sys.Owns j p := by
    obtain ⟨c, found, points⟩ := owns
    exact ⟨c, find rfl found points, points⟩
  have offers {p : Ref} (offers : Offers { sys with calls := sys.calls ++ [(call, .called)] } p) : sys.Offers p := by
    rcases offers with cached | ⟨j, c, found, points⟩
    · exact .inl cached
    · exact .inr ⟨j, c, find rfl found points, points⟩
  exact ⟨fun h => isolated.own_lt (owns h), fun h => isolated.offer_lt (offers h),
    fun h h' => isolated.own_own (owns h) (owns h'), fun h h' => isolated.own_offer (owns h) (offers h')⟩

theorem Isolated.step {piece : Option Piece} (step : Steps sys piece sys') (isolated : sys.Isolated) :
    sys'.Isolated := by
  cases step with
  | start call => exact isolated.start call
  | clear at_ => exact isolated.set at_ (clear_confined _)
  | advance at_ document => exact isolated.set at_ (advance_confined document _)

theorem isolated_fresh : (fresh : System F).Isolated := by
  have owns {i : Nat} {p : Ref} : ¬ (fresh : System F).Owns i p := by
    rintro ⟨c, found, -⟩
    cases found
  have offers {p : Ref} : ¬ (fresh : System F).Offers p := by
    rintro (⟨json, l, cached, -⟩ | ⟨i, c, found, -⟩)
    · cases cached
    · cases found
  exact ⟨fun h => absurd h owns, fun h => absurd h offers, fun h => absurd h owns, fun h => absurd h owns⟩

end System

/-- In every run of calls on any number of threads: the state that a call works on is behind no pointer of another call
    and behind none of the cache, and a piece of a call leaves every other state in memory as it was, with its memo. -/
theorem concurrent_calls_write_own {pieces : List Piece} {sys : System F} (run : Run Steps .fresh pieces sys) :
    (∀ i j p, sys.Owns i p → sys.Owns j p → i = j) ∧ (∀ i p, sys.Owns i p → ¬ sys.Offers p) ∧
      ∀ i sys', Steps sys (some (.advance i)) sys' → ∀ q < sys.process.heap.length, ¬ sys.Owns i q →
        sys'.process.heap[q]? = sys.process.heap[q]? := by
  have isolated : sys.Isolated := run.invariant (fun _ _ _ step before => before.step step) System.isolated_fresh
  refine ⟨fun _ _ _ => isolated.own_own, fun _ _ => isolated.own_offer, fun i sys' step q inside foreign => ?_⟩
  cases step with
  | clear at_ => rfl
  | advance at_ document =>
    refine (advance_confined document _).writes.same q inside fun own => foreign ?_
    exact ⟨_, at_, own⟩

theorem concurrent_calls_write_own_race : ∃ (sys : System Int) (p q : Ref), Run Steps .fresh racing sys ∧
    sys.Owns 0 p ∧ sys.Owns 1 q ∧ p ≠ q := by
  obtain ⟨sys, l, l', run, calls⟩ := racing_run
  have first : sys.Owns 0 l.state := ⟨(.plan taskDocument, .opened (some l)), by rw [calls]; rfl, rfl⟩
  have second : sys.Owns 1 l'.state := ⟨(.plan taskDocument, .opened (some l')), by rw [calls]; rfl, rfl⟩
  refine ⟨sys, l.state, l'.state, run, first, second, fun same => ?_⟩
  have one : 0 = 1 := (concurrent_calls_write_own run).1 0 1 l.state first (same ▸ second)
  cases one

end Shared
end WeftWarp
