import WeftWarp.Theorems.MethodOrder
import WeftWarp.Theorems.SearchSpace

/-! # `tw_seek_plan` as a search with a fail cache

Of the three caches only the fail cache can change what a planner invocation finds: as long as a search goes on, the
success cache is empty and no method has a positive score. -/

namespace WeftWarp

open TwJson (Thrown)

variable {F : Type} [Cxx F]

/-! ### Method statistics -/

/-- No score is positive. -/
def Cold (stats : Option TwMethodStats) : Prop :=
  ∀ st ∈ stats, ∀ key scores, st.find? key = some scores → ∀ n ∈ scores, n ≤ 0

theorem cold_empty : Cold (some .empty) := by simp [Cold]

theorem cold_none : Cold none := by simp [Cold]

variable {stats : Option TwMethodStats}

theorem Cold.methodScore (h : Cold stats) (key : UInt64) (i : Nat) : methodScore stats key i ≤ 0 := by
  refine getD_of_forall (P := (· ≤ 0)) (fun n hn => ?_) le_rfl i
  cases hk : stats.bind (·.find? key) with
  | none => simp [hk] at hn
  | some scores =>
    rw [hk] at hn
    obtain ⟨st, hst, found⟩ := Option.bind_eq_some_iff.mp hk
    exact h st hst key scores found n hn

theorem Cold.order (h : Cold stats) (key : UInt64) (count : Nat) :
    (twOrderMethods key count stats).1 = List.range count ∧ Cold (twOrderMethods key count stats).2 := by
  refine ⟨?_, EveryScore.order h le_rfl key count⟩
  rcases (twOrderMethods_bestFirst key count stats).swap with same | ⟨i, -, -, positive, -⟩
  · exact same
  · exact absurd (h.methodScore key i) (not_le.mpr positive)

theorem Cold.note (h : Cold stats) (key : UInt64) (i : Nat) : Cold (twNoteMethodResult key i false stats) := by
  refine EveryScore.note h le_rfl key i false fun n hn => ?_
  simp only [Bool.false_eq_true, if_false]
  omega

/-! ### The fail cache -/

/-- How `tw_seek_plan` uses its fail cache; `on` says whether there is one. The key 0 is never entered. -/
def seekPolicy (on : Bool) : Policy (Config F) TwMemoKey where
  key x := twSearchKey x.1 x.2
  looks x := on && !x.2.isEmpty
  marks x := on && twSearchKey x.1 x.2 != 0

/-- The caches of a search that has not succeeded yet. -/
structure Carries (on : Bool) (memo : TwMemo F) (C : List TwMemoKey) : Prop where
  fail : memo.failCache = if on then some C else none
  success : ∀ sc ∈ memo.successCache, ∀ key, sc.find? key = none
  stats : Cold memo.methodStats

namespace Carries
variable {on : Bool} {memo : TwMemo F} {C : List TwMemoKey}

theorem lookup_eq (h : Carries on memo C) (s : TwState F) (tasks : List (TwTask F)) :
    memo.lookup (memo.cacheKey s tasks) = if on && C.contains (twSearchKey s tasks) then some none else none := by
  have hs : ∀ key, (memo.successCache.bind (·.find? key)).map some = none := by
    intro key
    cases hsc : memo.successCache with
    | none => rfl
    | some sc => simp [h.success sc hsc key]
  cases on with
  | false => simp [TwMemo.lookup, h.fail, hs]
  | true => simp [TwMemo.lookup, TwMemo.cacheKey, h.fail, hs]

theorem cacheKey_eq (h : Carries true memo C) (s : TwState F) (tasks : List (TwTask F)) :
    memo.cacheKey s tasks = twSearchKey s tasks := by
  simp [TwMemo.cacheKey, h.fail]

theorem markFail (h : Carries on memo C) {key : TwMemoKey} {s : TwState F} {tasks : List (TwTask F)}
    (hkey : on = true → key = twSearchKey s tasks) :
    Carries on (memo.markFail key) ((seekPolicy on).mark (s, tasks) C) := by
  rw [TwMemo.markFail, Policy.mark]
  cases on with
  | false =>
    split
    · exact h
    · exact ⟨by simp [h.fail], h.success, h.stats⟩
  | true =>
    obtain rfl := hkey rfl
    by_cases hzero : twSearchKey s tasks = 0
    · simpa [seekPolicy, hzero] using h
    · simp only [hzero, if_false, seekPolicy, Bool.true_and, bne_iff_ne, ne_eq, not_false_eq_true, if_true]
      exact ⟨by simp [h.fail], h.success, h.stats⟩

omit [Cxx F] in
theorem note (h : Carries on memo C) (key : UInt64) (i : Nat) : Carries on (memo.note key i false) C :=
  ⟨h.fail, h.success, h.stats.note key i⟩

omit [Cxx F] in
theorem withStats (h : Carries on memo C) {stats : Option TwMethodStats} (hs : Cold stats) :
    Carries on { memo with methodStats := stats } C :=
  ⟨h.fail, h.success, hs⟩

end Carries

/-- A result of `tw_seek_plan` and the result of the search with a fail cache that it refines. -/
inductive Mirrors (on : Bool) : Seek F → Except Thrown (Option (List (TwCall F)) × List TwMemoKey) → Prop where
  | thrown (e : Thrown) : Mirrors on (.error e) (.error e)
  | found (q : List (TwCall F)) (memo : TwMemo F) (C : List TwMemoKey) : Mirrors on (.ok (some q, memo)) (.ok (some q, C))
  | failed {memo : TwMemo F} {C : List TwMemoKey} (h : Carries on memo C) : Mirrors on (.ok (none, memo)) (.ok (none, C))

omit [Cxx F] in
theorem Mirrors.answer {on : Bool} {r : Seek F} {r' : Except Thrown (Option (List (TwCall F)) × List TwMemoKey)}
    (mirrors : Mirrors on r r') : r.map Prod.fst = r'.map Prod.fst := by
  cases mirrors <;> rfl

section Refines
variable {d : TwDomain F} {bl : TwBlacklist} {on : Bool} {s : TwState F}
variable {seek : List (TwTask F) → TwMemo F → Seek F}
variable {f : Config F → List TwMemoKey → Except Thrown (Option (List (TwCall F)) × List TwMemoKey)}
variable {args : List (TwValue F)} {extend : List (TwTask F) → List (TwTask F)} {memo : TwMemo F}
  {rest : List (TwTask F)} {name : String} {C : List TwMemoKey}

theorem tryMethods_mirrors (hseek : ∀ tasks memo C, Carries on memo C → Mirrors on (seek tasks memo) (f (s, tasks) C))
    {all : List (TwMethodFn F)} {key : UInt64} :
    ∀ {methods : List (TwMethodFn F)} {m : Nat} {seen : List UInt64} {memo : TwMemo F} {C : List TwMemoKey},
      all.drop m = methods → Carries on memo C →
      Mirrors on (tryMethods d bl s seek all args key extend (List.range' m methods.length) seen memo)
        (memoAlts f (methodAlts d bl s (TwMethodSkip.skips .empty name args) args extend m methods seen) C)
  | [], m, seen, memo, C, _, hC => .failed hC
  | method :: methods, m, seen, memo, C, hdrop, hC => by
    have hget : all[m]? = some method := by
      rw [← List.head?_drop, hdrop]
      rfl
    have hnext : all.drop (m + 1) = methods := by
      rw [← List.drop_drop, hdrop]
      rfl
    have hskip : TwMethodSkip.skips .empty name args m = false := rfl
    rw [List.length_cons, List.range'_succ, tryMethods, methodAlts, hget, hskip]
    simp only [Option.bind_eq_bind, Option.bind_some, Bool.false_eq_true, if_false]
    cases method s args with
    | none => exact tryMethods_mirrors hseek hnext hC
    | some subs =>
      dsimp only
      split
      · exact tryMethods_mirrors hseek hnext hC
      · cases twPrefixPlausible d bl s 2 (extend subs) with
        | error e => exact .thrown e
        | ok passes =>
          cases passes with
          | false => exact tryMethods_mirrors hseek hnext hC
          | true =>
            dsimp only
            rw [memoAlts]
            have h := hseek (extend subs) memo C hC
            generalize seek (extend subs) memo = r at h ⊢
            generalize f (s, extend subs) C = r' at h ⊢
            cases h with
            | thrown e => exact .thrown e
            | found q memo' C' => exact .found q _ C'
            | failed hC' => exact tryMethods_mirrors hseek hnext (hC'.note key m)

theorem seekMethods_mirrors
    (hseek : ∀ tasks memo C, Carries on memo C → Mirrors on (seek tasks memo) (f (s, tasks) C))
    (hC : Carries on memo C) :
    Mirrors on (seekMethods d bl s seek name args extend memo)
      (memoAlts f (namedAlts d bl s .empty name args extend) C) := by
  rw [seekMethods, namedAlts]
  cases d.taskMethods.find? name with
  | none => exact .failed hC
  | some methods =>
    obtain ⟨horder, hcold⟩ := hC.stats.order (twMethodCallHash name args) methods.length
    dsimp only
    rw [horder, List.range_eq_range']
    exact tryMethods_mirrors hseek List.drop_zero (hC.withStats hcold)

omit [Cxx F] in
theorem tryBindings_mirrors
    (hseek : ∀ tasks memo C, Carries on memo C → Mirrors on (seek tasks memo) (f (s, tasks) C)) {mg : TwMultiGoal F} :
    ∀ {unmet : List (TwGoalBinding F)} {memo : TwMemo F} {C : List TwMemoKey}, Carries on memo C →
      Mirrors on (tryBindings seek mg rest unmet memo)
        (memoAlts f (unmet.map fun b => .ok (s, .goal ⟨[b]⟩ :: .multiGoal mg :: rest)) C)
  | [], memo, C, hC => .failed hC
  | b :: unmet, memo, C, hC => by
    rw [tryBindings, List.map_cons, memoAlts]
    have h := hseek (.goal ⟨[b]⟩ :: .multiGoal mg :: rest) memo C hC
    generalize seek (.goal ⟨[b]⟩ :: .multiGoal mg :: rest) memo = r at h ⊢
    generalize f (s, .goal ⟨[b]⟩ :: .multiGoal mg :: rest) C = r' at h ⊢
    cases h with
    | thrown e => exact .thrown e
    | found q memo' C' => exact .found q _ C'
    | failed hC' => exact tryBindings_mirrors hseek hC'

theorem seekBranch_mirrors (hseek : ∀ tasks memo C, Carries on memo C → Mirrors on (seek tasks memo) (f (s, tasks) C))
    {t : TwTask F} (hC : Carries on memo C) :
    Mirrors on (seekBranch d bl s seek t rest memo) (memoAlts f (branchAlts d bl s .empty rest t) C) := by
  cases t with
  | goal g =>
    rw [seekBranch, branchAlts]
    cases g.unsatisfied s with
    | error e => exact .thrown e
    | ok unmet =>
      cases unmet with
      | nil => exact .failed hC
      | cons b unmet => exact seekMethods_mirrors hseek hC
  | multiGoal mg =>
    rw [seekBranch, branchAlts]
    cases mg.unsatisfied s with
    | error e => exact .thrown e
    | ok unmet => exact tryBindings_mirrors hseek hC
  | call c => exact seekMethods_mirrors hseek hC

end Refines

section Refines
variable {d : TwDomain F} {bl : TwBlacklist} {on : Bool} {C : List TwMemoKey} {memo : TwMemo F}

/-- One level of `tw_seek_plan` is one level of the search with a fail cache. -/
theorem seekStep_mirrors {seek : Option (TwState F → List (TwTask F) → TwMemo F → Seek F)}
    {f : Option (Config F → List TwMemoKey → Except Thrown (Option (List (TwCall F)) × List TwMemoKey))}
    (hseek : (seek = none ∧ f = none) ∨ ∃ g g', seek = some g ∧ f = some g' ∧
      ∀ s tasks memo C, Carries on memo C → Mirrors on (g s tasks memo) (g' (s, tasks) C)) (s : TwState F)
    (tasks : List (TwTask F)) (hC : Carries on memo C) :
    Mirrors on (seekStep d bl seek s tasks memo) (memoStep (seekExpand d bl) (seekPolicy on) f (s, tasks) C) := by
  have hkey : on = true → memo.cacheKey s tasks = twSearchKey s tasks := fun hon => by
    subst hon
    exact hC.cacheKey_eq s tasks
  cases tasks with
  | nil =>
    have hx : seekExpand d bl (s, []) = .ok (.solved []) := rfl
    simp only [seekStep, memoStep, hx, seekPolicy, List.isEmpty_nil, Bool.not_true, Bool.and_false, Bool.false_and,
      Bool.false_eq_true, if_false, if_true]
    exact .found _ _ _
  | cons t ts =>
    have hlooks : ((seekPolicy on).looks (s, t :: ts) && C.contains ((seekPolicy on).key (s, t :: ts))) =
        (on && C.contains (twSearchKey s (t :: ts))) := by simp [seekPolicy]
    rw [seekStep, memoStep, seekExpand, hlooks]
    simp only [hC.lookup_eq, List.isEmpty_cons, Bool.false_eq_true, if_false]
    cases on && C.contains (twSearchKey s (t :: ts)) with
    | true => exact .failed hC
    | false =>
      cases walk d bl (t :: ts) (twBuildWitnessScanCache (t :: ts) d) 0 s [] (t :: ts) with
      | error e => exact .thrown e
      | ok w =>
        cases w with
        | done plan => exact .found _ _ _
        | dead => exact .failed (hC.markFail hkey)
        | branch plan s' t' rest =>
          obtain ⟨rfl, rfl⟩ | ⟨g, g', rfl, rfl, hg⟩ := hseek
          · exact .failed (hC.markFail hkey)
          · have h : Mirrors on (seekBranch d bl s' (g s') t' rest memo) _ := seekBranch_mirrors (hg s') hC
            simp only [Except.map, Walk.expansion]
            generalize seekBranch d bl s' (g s') t' rest memo = r at h ⊢
            generalize memoAlts g' (branchAlts d bl s' .empty rest t') C = r' at h ⊢
            cases h with
            | thrown e => exact .thrown e
            | found q memo' C' => exact .found _ _ _
            | failed hC' => exact .failed (hC'.markFail hkey)

/-- `tw_seek_plan` refines the search with a fail cache. -/
theorem twSeekPlan_mirrors (fuel : Nat) (s : TwState F) (tasks : List (TwTask F)) (hC : Carries on memo C) :
    Mirrors on (twSeekPlan d bl fuel s tasks memo)
      (memoSearch (seekExpand d bl) .atChoice (seekPolicy on) fuel (s, tasks) C) := by
  induction fuel generalizing s tasks memo C with
  | zero =>
    rw [twSeekPlan, memoSearch]
    exact seekStep_mirrors (.inl ⟨rfl, rfl⟩) s tasks hC
  | succ fuel ih =>
    exact seekStep_mirrors (.inr ⟨_, _, rfl, rfl, fun s tasks memo C hC => ih s tasks hC⟩) s tasks hC

omit [Cxx F] in
theorem carries_fresh : Carries true (.fresh : TwMemo F) [] :=
  ⟨rfl, by simp [TwMemo.fresh], cold_empty⟩

omit [Cxx F] in
theorem carries_absent : Carries false (.absent : TwMemo F) [] :=
  ⟨rfl, by simp [TwMemo.absent], cold_none⟩

end Refines

end WeftWarp
