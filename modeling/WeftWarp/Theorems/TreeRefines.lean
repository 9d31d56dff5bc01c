import WeftWarp.Theorems.SearchSpace

/-! # `tw_seek_plan_tree` as a search with a fail cache

The tree plays no part in what the search finds. A satisfied goal hands on the answer for the rest of the list
and does not mark a failure of its own. -/

namespace WeftWarp

open TwJson (Thrown)

variable {F : Type} [Cxx F]

theorem bindingsSatisfied_of_unsatisfied_nil {s : TwState F} : ∀ {bs : List (TwGoalBinding F)},
    bindingsUnsatisfied s bs = .ok [] → bindingsSatisfied s bs = .ok true
  | [], _ => rfl
  | b :: bs, h => by
    rw [bindingsUnsatisfied] at h
    rw [bindingsSatisfied]
    cases hb : b.satisfied s with
    | error e => simp [hb] at h
    | ok sat =>
      cases hbs : bindingsUnsatisfied s bs with
      | error e => simp [hb, hbs, Except.map] at h
      | ok unmet =>
        cases sat with
        | false => simp [hb, hbs, Except.map] at h
        | true =>
          simp only [hb, hbs, Except.map, if_true, Except.ok.injEq] at h
          subst h
          exact bindingsSatisfied_of_unsatisfied_nil hbs

/-- The bindings hold, and the check does not throw. -/
def bindingsMet (s : TwState F) (bs : List (TwGoalBinding F)) : Bool :=
  match bindingsSatisfied s bs with
  | .ok sat => sat
  | .error _ => false

/-- The head of the list is a goal that is met. -/
def metHead (x : Config F) : Bool :=
  match x.2 with
  | .goal g :: _ => bindingsMet x.1 g.bindings
  | .multiGoal mg :: _ => bindingsMet x.1 mg.bindings
  | _ => false

/-- How `tw_seek_plan_tree` uses its fail cache; `on` says whether there is one. -/
def treePolicy (on : Bool) : Policy (Config F) TwMemoKey where
  key x := twSearchKey x.1 x.2
  looks x := on && !x.2.isEmpty
  marks x := on && twSearchKey x.1 x.2 != 0 && !metHead x

/-- The fail cache of a tree search. -/
def TreeCarries (on : Bool) (memo : TwTreeMemo F) (C : List TwMemoKey) : Prop :=
  memo.failCache = if on then some C else none

/-- A result of `tw_seek_plan_tree` and the result of the search with a fail cache that it refines. -/
inductive TreeMirrors (on : Bool) :
    SeekTree F → Except Thrown (Option (List (TwCall F)) × List TwMemoKey) → Prop where
  | thrown (e : Thrown) : TreeMirrors on (.error e) (.error e)
  | found (q : List (TwCall F)) (memo : TwTreeMemo F) (C : List TwMemoKey) :
      TreeMirrors on (.ok (some q, memo)) (.ok (some q, C))
  | failed {memo : TwTreeMemo F} {C : List TwMemoKey} (h : TreeCarries on memo C) :
      TreeMirrors on (.ok (none, memo)) (.ok (none, C))

omit [Cxx F] in
theorem TreeMirrors.answer {on : Bool} {r : SeekTree F}
    {r' : Except Thrown (Option (List (TwCall F)) × List TwMemoKey)} (mirrors : TreeMirrors on r r') :
    r.map Prod.fst = r'.map Prod.fst := by
  cases mirrors <;> rfl

section Refines
variable {d : TwDomain F} {bl : TwBlacklist} {skip : TwMethodSkip} {on : Bool} {s : TwState F} {parent : Int}
variable {seek : List (TwTask F) → Int → TwTreeMemo F → SeekTree F}
variable {f : Config F → List TwMemoKey → Except Thrown (Option (List (TwCall F)) × List TwMemoKey)}
variable {C : List TwMemoKey} {memo : TwTreeMemo F}

omit [Cxx F] in
theorem TreeCarries.restore (h : TreeCarries on memo C) (cp : Nat) : TreeCarries on (memo.restore cp) C := h

theorem TreeCarries.cacheKey_eq (h : TreeCarries on memo C) (s : TwState F) (tasks : List (TwTask F)) :
    on = true → memo.cacheKey s tasks = twSearchKey s tasks := by
  rintro rfl
  have hC : memo.failCache = some C := h
  simp [TwTreeMemo.cacheKey, hC]

/-- The cache is asked as the policy tells. -/
theorem TreeCarries.looks_up (h : TreeCarries on memo C) (s : TwState F) (t : TwTask F) (rest : List (TwTask F)) :
    ((treePolicy on).looks (s, t :: rest) && C.contains ((treePolicy on).key (s, t :: rest))) =
      (memo.failCache.getD []).contains (memo.cacheKey s (t :: rest)) := by
  have hkey := h.cacheKey_eq s (t :: rest)
  cases on with
  | false =>
    have hC : memo.failCache = none := h
    simp [treePolicy, hC]
  | true =>
    have hC : memo.failCache = some C := h
    simp [treePolicy, hC, hkey rfl]

variable {key : TwMemoKey} {kind : TwSolKind} {name : String} {tasks : List (TwTask F)} {args : List (TwValue F)}
  {extend : List (TwTask F) → List (TwTask F)} {r : SeekTree F}
  {r' : Except Thrown (Option (List (TwCall F)) × List TwMemoKey)}

theorem TreeCarries.markFail (h : TreeCarries on memo C) (hkey : on = true → key = twSearchKey s tasks)
    (hmet : metHead (s, tasks) = false) : TreeCarries on (memo.markFail key) ((treePolicy on).mark (s, tasks) C) := by
  rw [TwTreeMemo.markFail, Policy.mark]
  cases on with
  | false =>
    split
    · exact h
    · simpa [TreeCarries] using h
  | true =>
    obtain rfl := hkey rfl
    have hC : memo.failCache = some C := h
    by_cases hzero : twSearchKey s tasks = 0
    · simpa [treePolicy, hzero] using h
    · simp [TreeCarries, treePolicy, hzero, hmet, hC]

theorem tryTreeMethods_mirrors
    (hseek : ∀ tasks parent memo C, TreeCarries on memo C → TreeMirrors on (seek tasks parent memo) (f (s, tasks) C)) :
    ∀ {methods : List (TwMethodFn F)} {m : Nat} {seen : List UInt64} {memo : TwTreeMemo F} {C : List TwMemoKey},
      TreeCarries on memo C →
      TreeMirrors on (tryTreeMethods d bl skip s parent seek kind name args extend m methods seen memo)
        (memoAlts f (methodAlts d bl s (skip.skips name args) args extend m methods seen) C)
  | [], m, seen, memo, C, hC => .failed hC
  | method :: methods, m, seen, memo, C, hC => by
    rw [tryTreeMethods, methodAlts]
    cases skip.skips name args m with
    | true => exact tryTreeMethods_mirrors hseek hC
    | false =>
      simp only [Bool.false_eq_true, if_false]
      cases method s args with
      | none => exact tryTreeMethods_mirrors hseek hC
      | some subs =>
        dsimp only
        split
        · exact tryTreeMethods_mirrors hseek hC
        · cases twPrefixPlausible d bl s 2 (extend subs) with
          | error e => exact .thrown e
          | ok passes =>
            cases passes with
            | false => exact tryTreeMethods_mirrors hseek hC
            | true =>
              dsimp only
              rw [memoAlts]
              have h := hseek (extend subs) (memo.addMethod kind parent name args m).1
                (memo.addMethod kind parent name args m).2 C hC
              generalize seek (extend subs) _ _ = r at h ⊢
              generalize f (s, extend subs) C = r' at h ⊢
              cases h with
              | thrown e => exact .thrown e
              | found q memo' C' => exact .found q _ C'
              | failed hC' => exact tryTreeMethods_mirrors hseek hC'

theorem seekTreeMethods_mirrors
    (hseek : ∀ tasks parent memo C, TreeCarries on memo C → TreeMirrors on (seek tasks parent memo) (f (s, tasks) C))
    (hC : TreeCarries on memo C) :
    TreeMirrors on (seekTreeMethods d bl skip s parent seek kind name args extend memo)
      (memoAlts f (namedAlts d bl s skip name args extend) C) := by
  rw [seekTreeMethods, namedAlts]
  cases d.taskMethods.find? name with
  | none => exact .failed hC
  | some methods => exact tryTreeMethods_mirrors hseek hC

omit [Cxx F] in
theorem tryTreeBindings_mirrors {mg : TwMultiGoal F} {rest : List (TwTask F)}
    (hseek : ∀ tasks parent memo C, TreeCarries on memo C → TreeMirrors on (seek tasks parent memo) (f (s, tasks) C)) :
    ∀ {unmet : List (TwGoalBinding F)} {memo : TwTreeMemo F} {C : List TwMemoKey}, TreeCarries on memo C →
      TreeMirrors on (tryTreeBindings parent seek mg rest unmet memo)
        (memoAlts f (unmet.map fun b => .ok (s, .goal ⟨[b]⟩ :: .multiGoal mg :: rest)) C)
  | [], memo, C, hC => .failed hC
  | b :: unmet, memo, C, hC => by
    rw [tryTreeBindings, List.map_cons, memoAlts]
    have h := hseek (.goal ⟨[b]⟩ :: .multiGoal mg :: rest) parent memo C hC
    generalize seek (.goal ⟨[b]⟩ :: .multiGoal mg :: rest) parent memo = r at h ⊢
    generalize f (s, .goal ⟨[b]⟩ :: .multiGoal mg :: rest) C = r' at h ⊢
    cases h with
    | thrown e => exact .thrown e
    | found q memo' C' => exact .found q _ C'
    | failed hC' => exact tryTreeBindings_mirrors hseek hC'

/-- `return mark_fail()` is the end of a level of the search. -/
theorem TreeMirrors.orMark (h : TreeMirrors on r r') (hkey : on = true → key = twSearchKey s tasks)
    (hmet : metHead (s, tasks) = false) :
    TreeMirrors on (r.orMark key) ((treePolicy on).conclude (s, tasks) [] r') := by
  cases h with
  | thrown e => exact .thrown e
  | found q memo C => exact .found q memo C
  | failed hC => exact .failed (hC.markFail hkey hmet)

/-- The answer for the rest of the list is handed on behind a goal that holds. -/
theorem TreeMirrors.handOn (h : TreeMirrors on r r') {x : Config F} (hmet : metHead x = true) :
    TreeMirrors on r ((treePolicy on).conclude x [] r') := by
  cases h with
  | thrown e => exact .thrown e
  | found q memo C => exact .found q memo C
  | failed hC =>
    refine .failed ?_
    simpa [Policy.mark, treePolicy, hmet] using hC

end Refines

section Refines
variable {d : TwDomain F} {bl : TwBlacklist} {skip : TwMethodSkip} {on : Bool}
variable {seek : TwState F → List (TwTask F) → Int → TwTreeMemo F → SeekTree F}
variable {f : Config F → List TwMemoKey → Except Thrown (Option (List (TwCall F)) × List TwMemoKey)}
variable {C : List TwMemoKey} {memo : TwTreeMemo F}

theorem treeStep_goal_mirrors
    (hseek : ∀ s tasks parent memo C, TreeCarries on memo C →
      TreeMirrors on (seek s tasks parent memo) (f (s, tasks) C)) (s : TwState F) (g : TwGoal F)
    (rest : List (TwTask F)) (parent : Int) (hC : TreeCarries on memo C) :
    TreeMirrors on (treeStep d bl skip seek s (.goal g :: rest) parent memo)
      (memoStep (treeExpand d bl skip) (treePolicy on) (some f) (s, .goal g :: rest) C) := by
  have hkey := hC.cacheKey_eq s (.goal g :: rest)
  have hhit := hC.looks_up s (.goal g) rest
  rw [treeStep, memoStep, hhit, treeExpand, headOf, bindingsHead, TwGoal.isSatisfied]
  cases (memo.failCache.getD []).contains (memo.cacheKey s (.goal g :: rest)) with
  | true => exact .failed hC
  | false =>
    simp only [Bool.false_eq_true, if_false]
    cases hsat : bindingsSatisfied s g.bindings with
    | error e => exact .thrown e
    | ok sat =>
      have hmet : metHead (s, .goal g :: rest) = sat := by simp [metHead, bindingsMet, hsat]
      cases sat with
      | true =>
        simp only [Except.map, if_true, memoAlts_singleton]
        exact (hseek s rest parent memo C hC).handOn hmet
      | false =>
        simp only [Except.map, Bool.false_eq_true, if_false, branchAlts]
        cases hu : g.unsatisfied s with
        | error e => exact .thrown e
        | ok unmet =>
          cases unmet with
          | nil => simp [bindingsSatisfied_of_unsatisfied_nil hu] at hsat
          | cons b unmet => exact (seekTreeMethods_mirrors (hseek s) hC).orMark hkey hmet

theorem treeStep_multiGoal_mirrors
    (hseek : ∀ s tasks parent memo C, TreeCarries on memo C →
      TreeMirrors on (seek s tasks parent memo) (f (s, tasks) C)) (s : TwState F) (mg : TwMultiGoal F)
    (rest : List (TwTask F)) (parent : Int) (hC : TreeCarries on memo C) :
    TreeMirrors on (treeStep d bl skip seek s (.multiGoal mg :: rest) parent memo)
      (memoStep (treeExpand d bl skip) (treePolicy on) (some f) (s, .multiGoal mg :: rest) C) := by
  have hkey := hC.cacheKey_eq s (.multiGoal mg :: rest)
  have hhit := hC.looks_up s (.multiGoal mg) rest
  rw [treeStep, memoStep, hhit, treeExpand, headOf, bindingsHead, TwMultiGoal.isSatisfied]
  cases (memo.failCache.getD []).contains (memo.cacheKey s (.multiGoal mg :: rest)) with
  | true => exact .failed hC
  | false =>
    simp only [Bool.false_eq_true, if_false]
    cases hsat : bindingsSatisfied s mg.bindings with
    | error e => exact .thrown e
    | ok sat =>
      have hmet : metHead (s, .multiGoal mg :: rest) = sat := by simp [metHead, bindingsMet, hsat]
      cases sat with
      | true =>
        simp only [Except.map, if_true, memoAlts_singleton]
        exact (hseek s rest parent memo C hC).handOn hmet
      | false =>
        simp only [Except.map, Bool.false_eq_true, if_false, branchAlts]
        cases mg.unsatisfied s with
        | error e => exact .thrown e
        | ok unmet => exact (tryTreeBindings_mirrors (hseek s) hC).orMark hkey hmet

theorem treeStep_call_mirrors
    (hseek : ∀ s tasks parent memo C, TreeCarries on memo C →
      TreeMirrors on (seek s tasks parent memo) (f (s, tasks) C)) (s : TwState F) (c : TwCall F)
    (rest : List (TwTask F)) (parent : Int) (hC : TreeCarries on memo C) :
    TreeMirrors on (treeStep d bl skip seek s (.call c :: rest) parent memo)
      (memoStep (treeExpand d bl skip) (treePolicy on) (some f) (s, .call c :: rest) C) := by
  have hkey := hC.cacheKey_eq s (.call c :: rest)
  have hhit := hC.looks_up s (.call c) rest
  have hmet : metHead (s, .call c :: rest) = false := rfl
  rw [treeStep, memoStep, hhit, treeExpand, headOf]
  cases (memo.failCache.getD []).contains (memo.cacheKey s (.call c :: rest)) with
  | true => exact .failed hC
  | false =>
    simp only [Bool.false_eq_true, if_false]
    cases d.actions.find? c.name with
    | none => exact (seekTreeMethods_mirrors (hseek s) hC).orMark hkey hmet
    | some act =>
      cases blacklisted bl c with
      | true => exact .failed (hC.markFail hkey hmet)
      | false =>
        cases hs : act s c.args with
        | none =>
          simp only [hs, Bool.false_eq_true, if_false]
          exact .failed (hC.markFail hkey hmet)
        | some s' =>
          simp only [hs, Bool.false_eq_true, if_false, Except.map, memoAlts_singleton]
          have h := hseek s' rest parent (memo.addAction parent c) C hC
          generalize seek s' rest parent (memo.addAction parent c) = r at h ⊢
          generalize f (s', rest) C = r' at h ⊢
          cases h with
          | thrown e => exact .thrown e
          | found q memo' C' => exact .found (c :: q) _ C'
          | failed hC' => exact .failed ((hC'.restore _).markFail hkey hmet)

/-- One level of `tw_seek_plan_tree` is one level of the search with a fail cache. -/
theorem treeStep_mirrors
    (hseek : ∀ s tasks parent memo C, TreeCarries on memo C →
      TreeMirrors on (seek s tasks parent memo) (f (s, tasks) C)) (s : TwState F) (tasks : List (TwTask F))
    (parent : Int) (hC : TreeCarries on memo C) :
    TreeMirrors on (treeStep d bl skip seek s tasks parent memo)
      (memoStep (treeExpand d bl skip) (treePolicy on) (some f) (s, tasks) C) := by
  cases tasks with
  | nil =>
    simp only [treeStep, memoStep, treeExpand, treePolicy, List.isEmpty_nil, Bool.not_true, Bool.and_false,
      Bool.false_and, Bool.false_eq_true, if_false]
    exact .found _ _ _
  | cons t rest =>
    cases t with
    | goal g => exact treeStep_goal_mirrors hseek s g rest parent hC
    | multiGoal mg => exact treeStep_multiGoal_mirrors hseek s mg rest parent hC
    | call c => exact treeStep_call_mirrors hseek s c rest parent hC

/-- `tw_seek_plan_tree` refines the search with a fail cache. -/
theorem twSeekPlanTree_mirrors (fuel : Nat) (s : TwState F) (tasks : List (TwTask F)) (parent : Int)
    (hC : TreeCarries on memo C) :
    TreeMirrors on (twSeekPlanTree d bl skip fuel s tasks parent memo)
      (memoSearch (treeExpand d bl skip) .atEntry (treePolicy on) fuel (s, tasks) C) := by
  induction fuel generalizing s tasks parent memo C with
  | zero => exact .failed hC
  | succ fuel ih => exact treeStep_mirrors (fun s tasks parent memo C hC => ih s tasks parent hC) s tasks parent hC

end Refines

end WeftWarp
