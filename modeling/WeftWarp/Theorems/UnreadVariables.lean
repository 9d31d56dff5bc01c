import WeftWarp.Theorems.Frame
import WeftWarp.Theorems.LoadedDomain

/-! # Variables that a document does not name

A change of the state at variables that no pointer names which a decomposition comes to is carried along by the
actions and not seen by the methods. -/

namespace WeftWarp

open TwLoader

variable {F : Type} [CxxMath F]

/-! ### The dictionaries of a document -/

section Dicts
variable {p : Dict F → Prop} {v : TwValue F}

omit [CxxMath F] in
theorem mem_listDicts {d : Dict F} {v : TwValue F} (hd : d ∈ v.dicts) :
    ∀ {vs : List (TwValue F)}, v ∈ vs → d ∈ listDicts vs
  | w :: vs, member => by
    rw [listDicts, List.mem_append]
    rcases List.mem_cons.mp member with rfl | member
    · exact .inl hd
    · exact .inr (mem_listDicts hd member)

omit [CxxMath F] in
theorem mem_entryDicts {d : Dict F} {kv : String × TwValue F} (hd : d ∈ kv.2.dicts) :
    ∀ {kvs : Dict F}, kv ∈ kvs → d ∈ entryDicts kvs
  | w :: kvs, member => by
    rw [entryDicts, List.mem_append]
    rcases List.mem_cons.mp member with rfl | member
    · exact .inl hd
    · exact .inr (mem_entryDicts hd member)

namespace TwValue.AllDicts

omit [CxxMath F] in
theorem entry (h : v.AllDicts p) {kv : String × TwValue F} (member : kv ∈ v.asDict) : kv.2.AllDicts p := by
  cases v with
  | dict kvs =>
    intro d hd
    refine h d ?_
    rw [TwValue.dicts]
    exact List.mem_cons_of_mem kvs (mem_entryDicts hd member)
  | _ => cases member

omit [CxxMath F] in
theorem element (h : v.AllDicts p) {w : TwValue F} (member : w ∈ v.asArray) : w.AllDicts p := by
  cases v with
  | array vs =>
    intro d hd
    refine h d ?_
    rw [TwValue.dicts]
    exact mem_listDicts hd member
  | _ => cases member

omit [CxxMath F] in
theorem field (h : v.AllDicts p) {k : String} {w : TwValue F} (found : v.asDict.lookup k = some w) : w.AllDicts p := by
  obtain ⟨before, after, split, -⟩ := List.lookup_eq_some_iff.mp found
  have member : (k, w) ∈ v.asDict := by simp [split]
  exact h.entry member

omit [CxxMath F] in
theorem arr (h : v.AllDicts p) {k : String} {w : TwValue F} (member : w ∈ getArr v.asDict k) : w.AllDicts p := by
  rw [getArr] at member
  cases found : v.asDict.lookup k with
  | none =>
    rw [found] at member
    cases member
  | some field =>
    rw [found] at member
    exact (h.field found).element member

end TwValue.AllDicts
end Dicts

/-! ### What an evaluation reads -/

section Avoids
variable (names : List String)

/-- The node reads none of the variables, checks no relation and draws no random number. -/
structure Avoids (params : Params F) (kvs : Dict F) : Prop where
  calm : nodeType kvs ≠ "random"
  noCheck : ¬(nodeType kvs = "check" ∧ (kvs.lookup "rel").isSome)
  reads : nodeType kvs = "get" → ∀ ptr, kvs.lookup "pointer" = some ptr → (parsePointer ptr.asString params).1 ∉ names

/-- Every node of the expression avoids the variables. -/
def AvoidsIn (params : Params F) (v : TwValue F) : Prop := v.AllDicts (Avoids names params)

/-- The binds read none of the variables, each under the parameters bound before it. -/
def BindsAvoid (s : TwState F) : Params F → List (TwValue F) → Prop
  | _, [] => True
  | params, bind :: binds =>
    (∀ ptr, bind.asDict.lookup "pointer" = some ptr → (parsePointer ptr.asString params).1 ∉ names) ∧
      BindsAvoid s (runBind s params bind) binds

/-- The expressions of the checks avoid the variables. -/
def ChecksAvoid (params : Params F) (checks : List (TwValue F)) : Prop :=
  ∀ check ∈ checks, ∀ expr, check.asDict.lookup "eval" = some expr → AvoidsIn names params expr

/-- The binds and checks of an alternative, or of a branch of a scan, avoid the variables. -/
def GuardAvoids (s : TwState F) (params : Params F) (d : Dict F) : Prop :=
  BindsAvoid names s params (getArr d "bind") ∧
    ChecksAvoid names (runBinds (getArr d "bind") params s) (getArr d "check")

/-- The step of an action body neither reads nor writes the variables. -/
structure StepAvoids (params : Params F) (step : TwValue F) : Prop where
  guard : ∀ expr, step.asDict.lookup "eval" = some expr → AvoidsIn names params expr
  writes : ∀ ptr, step.asDict.lookup "pointer/set" = some ptr → (parsePointer ptr.asString params).1 ∉ names
  value : ∀ expr, step.asDict.lookup "value" = some expr → AvoidsIn names params expr

/-- The steps of the body avoid the variables, as far as the body is run. -/
def BodyAvoids (params : Params F) : TwState F → List (TwValue F) → Prop
  | _, [] => True
  | s, step :: body =>
    StepAvoids names params step ∧ ∀ s', runStep params s step = some s' → BodyAvoids params s' body

/-- The scan avoids the variables, at every key of the variable that it goes over. -/
structure ScanAvoids (s : TwState F) (scan : Dict F) : Prop where
  apart : ((scan.lookup "over").getD .nil).asString ∉ names
  branches : ∀ br ∈ getArr scan "branches", ∀ kv ∈ (s.getVar ((scan.lookup "over").getD .nil).asString).asDict,
    GuardAvoids names s (OrderedMap.empty.set "_key" (.string kv.1)) br.asDict
  done : ChecksAvoid names .empty (getArr scan "done")

/-- What is invoked avoids the variables in the state, as the document has it under its name. -/
def InvocationAvoids (doc : Dict F) (s : TwState F) : Invocation F → Prop
  | .action name args => ∀ v, (name, v) ∈ ((doc.lookup "actions").getD .nil).asDict →
    let params := buildParams (getArr v.asDict "params") args
    BindsAvoid names s params (getArr v.asDict "bind") ∧
      BodyAvoids names (runBinds (getArr v.asDict "bind") params s) s (getArr v.asDict "body")
  | .method name args => ∀ v, (name, v) ∈ ((doc.lookup "methods").getD .nil).asDict →
    (∀ scan, v.asDict.lookup "scan" = some (.dict scan) → ScanAvoids names s scan) ∧
      ∀ alts, v.asDict.lookup "alternatives" = some (.array alts) → ∀ alt ∈ alts,
        GuardAvoids names s (buildParams (getArr v.asDict "params") args) alt.asDict

end Avoids

/-! ### Pointers without placeholders -/

omit [CxxMath F] in
theorem fillFrom_of_notMem {params : Params F} {render : TwValue F → String} : ∀ {cs : List Char}, '\x7b' ∉ cs →
    fillFrom params render none cs = cs
  | [], _ => rfl
  | c :: cs, plain => by
    rw [List.mem_cons, not_or] at plain
    rw [fillFrom, if_neg (Ne.symm plain.1), fillFrom_of_notMem plain.2]

theorem parsePointer_of_plain {ptr : String} (plain : '\x7b' ∉ ptr.toList) (params : Params F) :
    parsePointer ptr params = parsePointer ptr .empty := by
  have same (params : Params F) : substitutePointer ptr params = ptr := by
    rw [substitutePointer, fillFrom_of_notMem plain, String.ofList_toList]
  rw [parsePointer, parsePointer, same, same]

section Plain
variable {names : List String} {v : TwValue F}

variable (own : "" ∉ names)
include own

end Plain

/-! ### Changes at unread variables -/

theorem findSome?_congr {α β : Type} {f g : α → Option β} : ∀ {l : List α}, (∀ a ∈ l, f a = g a) →
    l.findSome? f = l.findSome? g
  | [], _ => rfl
  | a :: l, same => by
    rw [List.findSome?_cons, List.findSome?_cons, same a List.mem_cons_self,
      findSome?_congr fun b member => same b (List.mem_cons_of_mem a member)]

/-- The change `f` of the states with `P` touches only the variables in `names`. -/
structure Unread (f : TwState F → TwState F) (P : TwState F → Prop) (names : List String) : Prop where
  getVar : ∀ {s var}, P s → var ∉ names → (f s).getVar var = s.getVar var
  setNested : ∀ {s var key val}, P s → var ∉ names → (f s).setNested var key val = f (s.setNested var key val)
  keeps : ∀ {s var key val}, P s → var ∉ names → P (s.setNested var key val)
  nonempty : "" ∉ names

namespace Unread
variable {f : TwState F → TwState F} {P : TwState F → Prop} {names : List String} {s : TwState F} {params : Params F}
  {v : TwValue F}

theorem getNested (h : Unread f P names) (hs : P s) {var : String} (other : var ∉ names) (key : TwValue F) :
    (f s).getNested var key = s.getNested var key := by
  rw [TwState.getNested, TwState.getNested, h.getVar hs other]

theorem evalNode_eq (h : Unread f P names) (hs : P s) {expr vals : Dict F}
    (avoids : Avoids names params expr) : evalNode expr vals params (f s) = evalNode expr vals params s := by
  simp only [evalNode, if_neg avoids.noCheck]
  by_cases get : nodeType expr = "get"
  · cases found : expr.lookup "pointer" with
    | none => rfl
    | some ptr => simp only [h.getNested hs (avoids.reads get ptr found)]
  · simp only [if_neg get]

mutual

theorem evalExpr_eq (h : Unread f P names) (hs : P s) : ∀ {v : TwValue F}, AvoidsIn names params v →
    evalExpr params (f s) v = evalExpr params s v
  | .dict kvs, avoids => by
    have entries : evalEntries params (f s) kvs = evalEntries params s kvs :=
      evalEntries_eq h hs fun kv member => avoids.entry member
    have node : evalNode kvs (evalEntries params s kvs) params (f s) = evalNode kvs (evalEntries params s kvs) params s :=
      evalNode_eq h hs (avoids kvs (by simp [TwValue.dicts]))
    rw [evalExpr, evalExpr, entries, node]
  | .nil, _ => by simp only [evalExpr]
  | .bool _, _ => by simp only [evalExpr]
  | .int _, _ => by simp only [evalExpr]
  | .float _, _ => by simp only [evalExpr]
  | .string _, _ => by simp only [evalExpr]
  | .array _, _ => by simp only [evalExpr]

theorem evalEntries_eq (h : Unread f P names) (hs : P s) : ∀ {kvs : Dict F},
    (∀ kv ∈ kvs, AvoidsIn names params kv.2) → evalEntries params (f s) kvs = evalEntries params s kvs
  | [], _ => by simp only [evalEntries]
  | (k, v) :: kvs, avoids => by
    rw [evalEntries, evalEntries, evalExpr_eq h hs (avoids (k, v) List.mem_cons_self),
      evalEntries_eq h hs fun kv member => avoids kv (List.mem_cons_of_mem _ member)]

end

theorem runBind_eq (h : Unread f P names) (hs : P s) {bind : TwValue F}
    (reads : ∀ ptr, bind.asDict.lookup "pointer" = some ptr → (parsePointer ptr.asString params).1 ∉ names) :
    runBind (f s) params bind = runBind s params bind := by
  rw [runBind, runBind]
  cases bind.asDict.lookup "name" with
  | none => rfl
  | some name =>
    cases found : bind.asDict.lookup "pointer" with
    | none => rfl
    | some ptr => simp only [h.getNested hs (reads ptr found)]

theorem runBinds_eq (h : Unread f P names) (hs : P s) {binds : List (TwValue F)} {params : Params F}
    (avoids : BindsAvoid names s params binds) : runBinds binds params (f s) = runBinds binds params s := by
  induction binds generalizing params with
  | nil => simp only [runBinds, List.foldl_nil]
  | cons bind binds ih =>
    have rest := ih avoids.2
    simp only [runBinds, List.foldl_cons, h.runBind_eq hs avoids.1] at rest ⊢
    exact rest

theorem runChecks_eq (h : Unread f P names) (hs : P s) : ∀ {checks : List (TwValue F)},
    ChecksAvoid names params checks → runChecks checks params (f s) = runChecks checks params s
  | [], _ => rfl
  | check :: checks, avoids => by
    have rest := h.runChecks_eq hs fun later member => avoids later (List.mem_cons_of_mem check member)
    rw [runChecks, runChecks] at rest ⊢
    rw [List.all_cons, List.all_cons, rest]
    cases found : check.asDict.lookup "eval" with
    | none => rfl
    | some expr => simp only [h.evalExpr_eq hs (avoids check List.mem_cons_self expr found)]

theorem runStep_eq (h : Unread f P names) (hs : P s) {step : TwValue F} (avoids : StepAvoids names params step) :
    runStep params (f s) step = (runStep params s step).map f := by
  rw [runStep, runStep]
  cases guard : step.asDict.lookup "eval" with
  | some expr =>
    simp only [h.evalExpr_eq hs (avoids.guard expr guard)]
    split <;> rfl
  | none =>
    cases write : step.asDict.lookup "pointer/set" with
    | none => rfl
    | some ptr =>
      dsimp only
      split
      · rfl
      · cases value : step.asDict.lookup "value" with
        | none => rfl
        | some expr =>
          simp only [Option.map_some, h.evalExpr_eq hs (avoids.value expr value), h.setNested hs (avoids.writes ptr write)]

/-- A body that avoids the variables carries the change along and keeps the property of the states. -/
theorem runBody_eq (h : Unread f P names) : ∀ {body : List (TwValue F)} {s : TwState F}, P s →
    BodyAvoids names params s body → runBody params body (f s) = (runBody params body s).map f ∧
      ∀ s', runBody params body s = some s' → P s'
  | [], s, hs, _ => ⟨rfl, fun s' ran => Option.some.inj ran ▸ hs⟩
  | step :: body, s, hs, ⟨first, later⟩ => by
    rw [runBody, runBody, h.runStep_eq hs first]
    cases ran : runStep params s step with
    | none => exact ⟨rfl, fun _ ran => nomatch ran⟩
    | some mid =>
      have kept : KeptBy P params step := fun ptr found _ _ _ hs => h.keeps hs (first.writes ptr found)
      exact h.runBody_eq (runStep_keeps kept ran hs) (later mid ran)

theorem buildMethodAlt_eq (h : Unread f P names) (hs : P s) {alt : Dict F}
    {paramNames args : List (TwValue F)} (avoids : GuardAvoids names s (buildParams paramNames args) alt) :
    buildMethodAlt paramNames alt (f s) args = buildMethodAlt paramNames alt s args := by
  rw [buildMethodAlt, buildMethodAlt, h.runBinds_eq hs avoids.1]
  simp only [h.runChecks_eq hs avoids.2]

theorem scanBranch_eq (h : Unread f P names) (hs : P s) {br : Dict F} {key : String}
    (avoids : GuardAvoids names s (OrderedMap.empty.set "_key" (.string key)) br) (recurse : String) :
    scanBranch recurse (f s) br key = scanBranch recurse s br key := by
  rw [scanBranch, scanBranch, h.runBinds_eq hs avoids.1]
  simp only [h.runChecks_eq hs avoids.2]

theorem buildScanMethod_eq (h : Unread f P names) (hs : P s) {scan : Dict F}
    (avoids : ScanAvoids names s scan) (args : List (TwValue F)) :
    buildScanMethod scan (f s) args = buildScanMethod scan s args := by
  have found (recurse : String) :
      (((getArr scan "branches").filter TwValue.isDict).map TwValue.asDict).findSome? (fun br =>
          ((s.getVar ((scan.lookup "over").getD .nil).asString).asDict.map Prod.fst).findSome?
            (scanBranch recurse (f s) br)) =
        (((getArr scan "branches").filter TwValue.isDict).map TwValue.asDict).findSome? (fun br =>
          ((s.getVar ((scan.lookup "over").getD .nil).asString).asDict.map Prod.fst).findSome?
            (scanBranch recurse s br)) := by
    refine findSome?_congr fun br member => findSome?_congr fun key isKey => ?_
    obtain ⟨w, hw, rfl⟩ := List.mem_map.mp member
    obtain ⟨kv, hkv, rfl⟩ := List.mem_map.mp isKey
    exact h.scanBranch_eq hs (avoids.branches w (List.mem_filter.mp hw).1 kv hkv) recurse
  simp only [buildScanMethod, h.getVar hs avoids.apart, found, h.runChecks_eq hs avoids.done]

/-- The change is not observed by planning in the document's domain if all that a decomposition invokes avoids
    the variables and no check sees it. -/
theorem frame (h : Unread f P names) {doc : Dict F} {x : Config F}
    (avoids : ∀ {q y inv}, Run (Step (loadCallables doc)) x q y → Invokes (loadCallables doc) y inv →
      InvocationAvoids names doc y.1 inv)
    (checks : ∀ {q y}, Run (Step (loadCallables doc)) x q y → P y.1 → SameChecks y.1 (f y.1) y.2) :
    Frame (loadCallables doc) f fun y => (∃ q, Run (Step (loadCallables doc)) x q y) ∧ P y.1 where
  step := by
    rintro y l z ⟨⟨q, run⟩, hs⟩ step
    refine ⟨⟨_, run.trans (.step step (.refl z))⟩, ?_⟩
    cases step with
    | act ha acts =>
      have invoked := avoids run (.act ha)
      obtain ⟨v, member, rfl⟩ := action_of_document ha
      exact (h.runBody_eq hs (invoked v member).2).2 _ acts
    | _ => exact hs
  carries := by
    rintro s c rest act ⟨⟨q, run⟩, hs⟩ found
    have invoked := avoids run (.act found)
    obtain ⟨v, member, rfl⟩ := action_of_document found
    obtain ⟨binds, body⟩ := invoked v member
    rw [buildAction, buildAction, h.runBinds_eq hs binds]
    exact (h.runBody_eq hs body).1
  unseen := by
    rintro y name args methods method ⟨⟨q, run⟩, hs⟩ invokes found member
    obtain ⟨v, named, built⟩ := methods_of_document found
    obtain ⟨scans, alternatives⟩ := avoids run invokes v named
    cases built _ member with
    | scan hscan => exact h.buildScanMethod_eq hs (scans _ hscan) args
    | alternative halts halt => exact h.buildMethodAlt_eq hs (alternatives _ halts _ halt)
  checks := fun ⟨⟨_, run⟩, hs⟩ => checks run hs

end Unread
end WeftWarp
