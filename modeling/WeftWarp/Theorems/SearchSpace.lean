import WeftWarp.Decomposition
import WeftWarp.Lib.Search
import WeftWarp.SolTree
import WeftWarp.Theorems.WitnessScan

/-! # The search spaces of the two planners

Both planners try the same alternatives in the same order. Between two decisions `tw_seek_plan` walks and asks the
witness oracle, while `tw_seek_plan_tree` treats every task as a step of its own. -/

namespace WeftWarp

open TwJson (Thrown)

variable {F : Type} [Cxx F]

/-! ### The head of the list -/

/-- What the task at the head of the list calls for. -/
inductive Head (F : Type) where
  | met
  | acts (c : TwCall F) (s : TwState F)
  | stuck
  | undecided

/-- Bindings at the head of a list. -/
def bindingsHead (s : TwState F) (bs : List (TwGoalBinding F)) : Except Thrown (Head F) :=
  (bindingsSatisfied s bs).map fun sat => if sat then .met else .undecided

/-- The head without a look at its alternatives. -/
def headOf (d : TwDomain F) (bl : TwBlacklist) (s : TwState F) : TwTask F → Except Thrown (Head F)
  | .goal g => bindingsHead s g.bindings
  | .multiGoal mg => bindingsHead s mg.bindings
  | .call c => .ok <| match d.actions.find? c.name with
    | none => .undecided
    | some act =>
      if blacklisted bl c then .stuck
      else match act s c.args with
        | none => .stuck
        | some s' => .acts c s'

theorem bindingsHead_inv {s : TwState F} {bs : List (TwGoalBinding F)} {head : Head F}
    (h : bindingsHead s bs = .ok head) :
    (head = .met ∧ bindingsSatisfied s bs = .ok true) ∨ (head = .undecided ∧ bindingsSatisfied s bs = .ok false) := by
  rw [bindingsHead] at h
  cases hs : bindingsSatisfied s bs with
  | error e => simp [hs, Except.map] at h
  | ok sat =>
    rw [hs] at h
    cases h
    cases sat
    · exact .inr ⟨rfl, rfl⟩
    · exact .inl ⟨rfl, rfl⟩

/-! ### Alternatives -/

section Alternatives
variable (d : TwDomain F) (bl : TwBlacklist) (s : TwState F)

/-- The decompositions that a list of methods offers from method `m` on. A signature met before and an
    implausible prefix drop out. -/
def methodAlts (skipped : Nat → Bool) (args : List (TwValue F)) (extend : List (TwTask F) → List (TwTask F)) :
    Nat → List (TwMethodFn F) → List UInt64 → List (Except Thrown (Config F))
  | _, [], _ => []
  | m, method :: methods, seen =>
    if skipped m then methodAlts skipped args extend (m + 1) methods seen
    else match method s args with
      | none => methodAlts skipped args extend (m + 1) methods seen
      | some subs =>
        let newTasks := extend subs
        let sig := twTasksHash newTasks
        if seen.contains sig then methodAlts skipped args extend (m + 1) methods seen
        else match twPrefixPlausible d bl s 2 newTasks with
          | .error e => [.error e]
          | .ok false => methodAlts skipped args extend (m + 1) methods (sig :: seen)
          | .ok true => .ok (s, newTasks) :: methodAlts skipped args extend (m + 1) methods (sig :: seen)

/-- The alternatives of the methods of a name. -/
def namedAlts (skip : TwMethodSkip) (name : String) (args : List (TwValue F))
    (extend : List (TwTask F) → List (TwTask F)) : List (Except Thrown (Config F)) :=
  match d.taskMethods.find? name with
  | none => []
  | some methods => methodAlts d bl s (skip.skips name args) args extend 0 methods []

/-- The alternatives at an undecided head. -/
def branchAlts (skip : TwMethodSkip) (rest : List (TwTask F)) : TwTask F → List (Except Thrown (Config F))
  | .goal g =>
    match g.unsatisfied s with
    | .error e => [.error e]
    | .ok [] => []
    | .ok (b :: _) => namedAlts d bl s skip b.var [.string b.key, b.desired] (fun subs => subs ++ .goal g :: rest)
  | .multiGoal mg =>
    match mg.unsatisfied s with
    | .error e => [.error e]
    | .ok unmet => unmet.map fun b => .ok (s, .goal ⟨[b]⟩ :: .multiGoal mg :: rest)
  | .call c => namedAlts d bl s skip c.name c.args (fun subs => subs ++ rest)

end Alternatives

/-! ### Expansions -/

/-- How `tw_seek_plan_tree` expands a configuration: one task at a time. -/
def treeExpand (d : TwDomain F) (bl : TwBlacklist) (skip : TwMethodSkip) :
    Config F → Except Thrown (Expansion (Config F) Thrown (TwCall F))
  | (_, []) => .ok (.solved [])
  | (s, t :: rest) => (headOf d bl s t).map fun
    | .met => .branch [] [.ok (s, rest)]
    | .acts c s' => .branch [c] [.ok (s', rest)]
    | .stuck => .dead
    | .undecided => .branch [] (branchAlts d bl s skip rest t)

/-- The expansion at the end of a walk. -/
def Walk.expansion (d : TwDomain F) (bl : TwBlacklist) : Walk F → Expansion (Config F) Thrown (TwCall F)
  | .done plan => .solved plan
  | .dead => .dead
  | .branch plan s t rest => .branch plan (branchAlts d bl s .empty rest t)

/-- How `tw_seek_plan` expands a configuration: up to the next decision. -/
def seekExpand (d : TwDomain F) (bl : TwBlacklist) (x : Config F) :
    Except Thrown (Expansion (Config F) Thrown (TwCall F)) :=
  (walk d bl x.2 (twBuildWitnessScanCache x.2 d) 0 x.1 [] x.2).map (Walk.expansion d bl)

theorem seekExpand_eq_ok_iff {d : TwDomain F} {bl : TwBlacklist} {x : Config F}
    {ex : Expansion (Config F) Thrown (TwCall F)} :
    seekExpand d bl x = .ok ex ↔
      ∃ w, walk d bl x.2 (twBuildWitnessScanCache x.2 d) 0 x.1 [] x.2 = .ok w ∧ w.expansion d bl = ex := by
  rw [seekExpand]
  cases walk d bl x.2 (twBuildWitnessScanCache x.2 d) 0 x.1 [] x.2 with
  | error e => simp [Except.map]
  | ok w => simp [Except.map]

/-! ### The walk -/

section Walk
variable {d : TwDomain F} {bl : TwBlacklist}

theorem walk_cons (tasks : List (TwTask F)) (cache : TwWitnessScanCache) (idx : Nat) (s : TwState F)
    (plan : List (TwCall F)) (t : TwTask F) (rest : List (TwTask F)) :
    walk d bl tasks cache idx s plan (t :: rest) =
      match twWitnessOracleGoalReachCached s tasks d cache idx with
      | .error e => .error e
      | .ok wr =>
        if !wr.found then .ok .dead
        else match headOf d bl s t with
          | .error e => .error e
          | .ok .met => walk d bl tasks cache (idx + 1) s plan rest
          | .ok (.acts c s') => walk d bl tasks cache (idx + 1) s' (plan ++ [c]) rest
          | .ok .stuck => .ok .dead
          | .ok .undecided => .ok (.branch plan s t rest) := by
  cases t with
  | goal g =>
    rw [walk, headOf, bindingsHead, TwGoal.isSatisfied]
    cases bindingsSatisfied s g.bindings with
    | error e => rfl
    | ok sat => cases sat <;> rfl
  | multiGoal mg =>
    rw [walk, headOf, bindingsHead, TwMultiGoal.isSatisfied]
    cases bindingsSatisfied s mg.bindings with
    | error e => rfl
    | ok sat => cases sat <;> rfl
  | call c =>
    rw [walk, headOf]
    cases d.actions.find? c.name with
    | none => rfl
    | some act =>
      cases twWitnessOracleGoalReachCached s tasks d cache idx with
      | error e => rfl
      | ok wr =>
        cases blacklisted bl c with
        | true => rfl
        | false => cases h : act s c.args <;> simp [h]

end Walk

/-! ### Solutions are decompositions -/

section Tree
variable {d : TwDomain F} {bl : TwBlacklist} {skip : TwMethodSkip} {s : TwState F}
variable {y x : Config F} {rest : List (TwTask F)} {t : TwTask F} {args : List (TwValue F)}
  {extend : List (TwTask F) → List (TwTask F)} {c : TwCall F} {p q : List (TwCall F)}

/-- An alternative comes from a method that is not skipped. -/
theorem mem_methodAlts {skipped : Nat → Bool} :
    ∀ {m : Nat} {methods : List (TwMethodFn F)} {seen : List UInt64},
    .ok y ∈ methodAlts d bl s skipped args extend m methods seen →
      ∃ method ∈ methods, ∃ subs, method s args = some subs ∧ y = (s, extend subs)
  | m, [], seen, h => by simp [methodAlts] at h
  | m, method :: methods, seen, h => by
    have later {m seen} (h : .ok y ∈ methodAlts d bl s skipped args extend m methods seen) :
        ∃ method' ∈ method :: methods, ∃ subs, method' s args = some subs ∧ y = (s, extend subs) := by
      obtain ⟨method', hmem, hsubs⟩ := mem_methodAlts h
      exact ⟨method', List.mem_cons_of_mem _ hmem, hsubs⟩
    rw [methodAlts] at h
    split at h
    · exact later h
    · split at h
      · exact later h
      · rename_i subs hsubs
        simp only at h
        split at h
        · exact later h
        · split at h
          · simp at h
          · exact later h
          · rcases List.mem_cons.mp h with h | h
            · cases h
              exact ⟨method, List.mem_cons_self, subs, hsubs, rfl⟩
            · exact later h

theorem mem_namedAlts {name : String} (h : .ok y ∈ namedAlts d bl s skip name args extend) :
    ∃ methods, d.taskMethods.find? name = some methods ∧
      ∃ method ∈ methods, ∃ subs, method s args = some subs ∧ y = (s, extend subs) := by
  rw [namedAlts] at h
  cases hm : d.taskMethods.find? name with
  | none => simp [hm] at h
  | some methods =>
    simp only [hm] at h
    exact ⟨methods, rfl, mem_methodAlts h⟩

theorem no_action_of_undecided (hhead : headOf d bl s (.call c) = .ok .undecided) :
    d.actions.find? c.name = none := by
  cases ha : d.actions.find? c.name with
  | none => rfl
  | some act =>
    simp only [headOf, ha] at hhead
    split at hhead
    · simp at hhead
    · split at hhead <;> simp at hhead

theorem step_of_mem_branchAlts (hhead : headOf d bl s t = .ok .undecided) (h : .ok y ∈ branchAlts d bl s skip rest t) :
    Step d (s, t :: rest) none y := by
  cases t with
  | goal g =>
    rw [branchAlts] at h
    split at h
    · simp at h
    · simp at h
    · rename_i b unmet hu
      obtain ⟨methods, hm, method, hmem, subs, hsubs, rfl⟩ := mem_namedAlts h
      exact .goalVia hu hm hmem hsubs
  | multiGoal mg =>
    rw [branchAlts] at h
    split at h
    · simp at h
    · rename_i unmet hu
      obtain ⟨b, hb, hy⟩ := List.mem_map.mp h
      cases hy
      exact .multiVia hu hb
  | call c =>
    obtain ⟨methods, hm, method, hmem, subs, hsubs, rfl⟩ := mem_namedAlts h
    exact .task (no_action_of_undecided hhead) hm hmem hsubs

theorem step_of_met (h : headOf d bl s t = .ok .met) : Step d (s, t :: rest) none (s, rest) := by
  cases t with
  | goal g =>
    obtain ⟨-, hs⟩ | ⟨hne, -⟩ := bindingsHead_inv h
    · exact .goalMet hs
    · cases hne
  | multiGoal mg =>
    obtain ⟨-, hs⟩ | ⟨hne, -⟩ := bindingsHead_inv h
    · exact .multiMet hs
    · cases hne
  | call c =>
    simp only [headOf, Except.ok.injEq] at h
    repeat' split at h
    all_goals simp at h

theorem acts_inv {s' : TwState F} (h : headOf d bl s t = .ok (.acts c s')) :
    t = .call c ∧ blacklisted bl c = false ∧ ∃ act, d.actions.find? c.name = some act ∧ act s c.args = some s' := by
  cases t with
  | goal g => obtain ⟨hne, -⟩ | ⟨hne, -⟩ := bindingsHead_inv h <;> cases hne
  | multiGoal mg => obtain ⟨hne, -⟩ | ⟨hne, -⟩ := bindingsHead_inv h <;> cases hne
  | call c₀ =>
    simp only [headOf, Except.ok.injEq] at h
    split at h
    · simp at h
    · rename_i act ha
      split at h
      · simp at h
      · rename_i hb
        split at h
        · simp at h
        · rename_i s₁ hs
          simp only [Head.acts.injEq] at h
          obtain ⟨rfl, rfl⟩ := h
          exact ⟨rfl, by simpa using hb, act, ha, hs⟩

theorem treeExpand_cons_inv {ex : Expansion (Config F) Thrown (TwCall F)}
    (h : treeExpand d bl skip (s, t :: rest) = .ok ex) :
    (headOf d bl s t = .ok .met ∧ ex = .branch [] [.ok (s, rest)]) ∨
    (∃ c s', headOf d bl s t = .ok (.acts c s') ∧ ex = .branch [c] [.ok (s', rest)]) ∨
    (headOf d bl s t = .ok .stuck ∧ ex = .dead) ∨
    (headOf d bl s t = .ok .undecided ∧ ex = .branch [] (branchAlts d bl s skip rest t)) := by
  rw [treeExpand] at h
  cases hh : headOf d bl s t with
  | error e => simp [hh, Except.map] at h
  | ok head =>
    rw [hh] at h
    cases h
    cases head with
    | met => exact .inl ⟨rfl, rfl⟩
    | acts c s' => exact .inr (.inl ⟨c, s', rfl, rfl⟩)
    | stuck => exact .inr (.inr (.inl ⟨rfl, rfl⟩))
    | undecided => exact .inr (.inr (.inr ⟨rfl, rfl⟩))

/-- Every choice of a solution is a step of a decomposition, and its labels are actions off the blacklist. -/
theorem treeExpand_step {alts : List (Except Thrown (Config F))} (h : treeExpand d bl skip x = .ok (.branch p alts))
    (hy : .ok y ∈ alts) : ∃ l, Step d x l y ∧ p = l.toList ∧ ∀ c ∈ p, blacklisted bl c = false := by
  obtain ⟨s, _ | ⟨t, rest⟩⟩ := x
  · simp [treeExpand] at h
  · obtain ⟨hh, hex⟩ | ⟨c, s', hh, hex⟩ | ⟨-, hex⟩ | ⟨hh, hex⟩ := treeExpand_cons_inv h
    · cases hex
      cases List.mem_singleton.mp hy
      exact ⟨none, step_of_met hh, rfl, by simp⟩
    · cases hex
      cases List.mem_singleton.mp hy
      obtain ⟨rfl, hb, act, ha, hs⟩ := acts_inv hh
      exact ⟨some c, .act ha hs, rfl, by simpa using hb⟩
    · cases hex
    · cases hex
      exact ⟨none, step_of_mem_branchAlts hh hy, rfl, by simp⟩

theorem treeExpand_solved (h : treeExpand d bl skip x = .ok (.solved p)) : x.2 = [] ∧ p = [] := by
  obtain ⟨s, _ | ⟨t, rest⟩⟩ := x
  · simp only [treeExpand, Except.ok.injEq, Expansion.solved.injEq] at h
    exact ⟨rfl, h.symm⟩
  · obtain ⟨-, hex⟩ | ⟨_, _, -, hex⟩ | ⟨-, hex⟩ | ⟨-, hex⟩ := treeExpand_cons_inv h <;> cases hex

theorem decomposes_of_solves (h : Solves (treeExpand d bl skip) x q) : Decomposes d x.1 x.2 q := by
  induction h with
  | @solved x p h =>
    obtain ⟨hx, rfl⟩ := treeExpand_solved h
    exact ⟨x.1, by rw [hx]; exact .refl _⟩
  | branch h hy _ ih =>
    obtain ⟨l, hstep, rfl, -⟩ := treeExpand_step h hy
    obtain ⟨t, hrun⟩ := ih
    exact ⟨t, .step hstep hrun⟩

theorem not_blacklisted_of_solves (h : Solves (treeExpand d bl skip) x q) : ∀ c ∈ q, blacklisted bl c = false := by
  induction h with
  | solved h =>
    obtain ⟨-, rfl⟩ := treeExpand_solved h
    simp
  | branch h hy _ ih =>
    obtain ⟨-, -, -, hbl⟩ := treeExpand_step h hy
    intro c hc
    rcases List.mem_append.mp hc with hc | hc
    · exact hbl c hc
    · exact ih c hc

end Tree

/-! ### What the walk leaves out

A walk of `tw_seek_plan` is a chain of steps of the tree search, each behind a yes of the witness oracle. -/

/-- The expansion of the tree search behind the witness oracle. -/
def guardedExpand (d : TwDomain F) (bl : TwBlacklist) (x : Config F) :
    Except Thrown (Expansion (Config F) Thrown (TwCall F)) :=
  match twWitnessOracleGoalReach x.1 x.2 d with
  | .error e => .error e
  | .ok wr => if wr.found then treeExpand d bl .empty x else .ok .dead

section Guarded
variable {d : TwDomain F} {bl : TwBlacklist} {x : Config F} {q : List (TwCall F)} {rest : List (TwTask F)}

theorem guardedExpand_inv {ex : Expansion (Config F) Thrown (TwCall F)} (h : guardedExpand d bl x = .ok ex)
    (hex : ex ≠ .dead) :
    treeExpand d bl .empty x = .ok ex ∧ ∃ wr, twWitnessOracleGoalReach x.1 x.2 d = .ok wr ∧ wr.found = true := by
  rw [guardedExpand] at h
  split at h
  · cases h
  · rename_i wr hwr
    split at h
    · exact ⟨h, wr, hwr, ‹_›⟩
    · cases h
      exact absurd rfl hex

variable {wr : TwWitnessResult}

theorem guardedExpand_of_found (h : twWitnessOracleGoalReach x.1 x.2 d = .ok wr) (hf : wr.found = true) :
    guardedExpand d bl x = treeExpand d bl .empty x := by
  simp [guardedExpand, h, hf]

theorem tree_of_guarded (h : Solves (guardedExpand d bl) x q) : Solves (treeExpand d bl .empty) x q := by
  induction h with
  | solved h => exact .solved (guardedExpand_inv h (by simp)).1
  | branch h hy _ ih => exact .branch (guardedExpand_inv h (by simp)).1 hy ih

/-- The walk behind actions. -/
def Walk.prepend (plan : List (TwCall F)) : Walk F → Walk F
  | .done p => .done (plan ++ p)
  | .dead => .dead
  | .branch p s t rest => .branch (plan ++ p) s t rest

theorem walk_append (tasks : List (TwTask F)) (cache : TwWitnessScanCache) (plan : List (TwCall F)) :
    ∀ (rest : List (TwTask F)) (idx : Nat) (s : TwState F) (p : List (TwCall F)),
      walk d bl tasks cache idx s (plan ++ p) rest = (walk d bl tasks cache idx s p rest).map (Walk.prepend plan)
  | [], _, _, _ => rfl
  | t :: rest, idx, s, p => by
    rw [walk_cons, walk_cons]
    cases twWitnessOracleGoalReachCached s tasks d cache idx with
    | error e => rfl
    | ok wr =>
      obtain ⟨_ | _, certified, skipped⟩ := wr
      · rfl
      · cases headOf d bl s t with
        | error e => rfl
        | ok head =>
          cases head with
          | met => exact walk_append tasks cache plan rest (idx + 1) s p
          | acts c s' =>
            have h := walk_append tasks cache plan rest (idx + 1) s' (p ++ [c])
            rw [← List.append_assoc] at h
            exact h
          | stuck => rfl
          | undecided => rfl

variable {tasks : List (TwTask F)} {idx : Nat} {t : TwTask F} {s : TwState F}

omit [Cxx F] in
theorem drop_succ_of_drop (h : tasks.drop idx = t :: rest) : tasks.drop (idx + 1) = rest := by
  rw [← List.drop_drop, h]
  rfl

/-- One task of a walk, in terms of the oracle on the list from there on. -/
theorem walk_cons_of_drop (h : tasks.drop idx = t :: rest) (hwr : twWitnessOracleGoalReach s (t :: rest) d = .ok wr)
    (hf : wr.found = true) :
    walk d bl tasks (twBuildWitnessScanCache tasks d) idx s [] (t :: rest) =
      match headOf d bl s t with
      | .error e => .error e
      | .ok .met => walk d bl tasks (twBuildWitnessScanCache tasks d) (idx + 1) s [] rest
      | .ok (.acts c s') =>
        (walk d bl tasks (twBuildWitnessScanCache tasks d) (idx + 1) s' [] rest).map (Walk.prepend [c])
      | .ok .stuck => .ok .dead
      | .ok .undecided => .ok (.branch [] s t rest) := by
  rw [walk_cons, oracleCached_of_drop d s h, hwr]
  simp only [hf, Bool.not_true, Bool.false_eq_true, if_false]
  cases headOf d bl s t with
  | error e => rfl
  | ok head =>
    cases head with
    | acts c s' => exact walk_append tasks _ [c] rest (idx + 1) s' []
    | met => rfl
    | stuck => rfl
    | undecided => rfl

/-- The walk leads to the solution `q`, where `S` solves the alternatives. -/
def WalkSolves (d : TwDomain F) (bl : TwBlacklist) (S : Config F → List (TwCall F) → Prop) (q : List (TwCall F)) :
    Except Thrown (Walk F) → Prop
  | .ok (.done p) => p = q
  | .ok (.branch p s t rest) => ∃ y r, q = p ++ r ∧ .ok y ∈ branchAlts d bl s .empty rest t ∧ S y r
  | _ => False

theorem walkSolves_prepend {S : Config F → List (TwCall F) → Prop} {c : TwCall F} {w : Except Thrown (Walk F)} :
    WalkSolves d bl S q (w.map (Walk.prepend [c])) ↔ ∃ q', q = c :: q' ∧ WalkSolves d bl S q' w := by
  cases w with
  | error e => simp [Except.map, WalkSolves]
  | ok w =>
    cases w with
    | done p => simp [Except.map, Walk.prepend, WalkSolves, eq_comm]
    | dead => simp [Except.map, Walk.prepend, WalkSolves]
    | branch p s t rest =>
      simp only [Except.map, Walk.prepend, WalkSolves, List.cons_append]
      constructor
      · rintro ⟨y, r, rfl, hy⟩
        exact ⟨p ++ r, rfl, y, r, rfl, hy⟩
      · rintro ⟨q', rfl, y, r, rfl, hy⟩
        exact ⟨y, r, rfl, hy⟩

/-- A walk that leads to a solution is a solution of the guarded search. -/
theorem guarded_of_walk (hrest : tasks.drop idx = rest)
    (h : WalkSolves d bl (Solves (guardedExpand d bl)) q
      (walk d bl tasks (twBuildWitnessScanCache tasks d) idx s [] rest)) :
    Solves (guardedExpand d bl) (s, rest) q := by
  induction rest generalizing idx s q with
  | nil =>
    obtain rfl : [] = q := h
    have hnil : twWitnessOracleGoalReach s [] d = .ok ⟨true, 0, 0⟩ := rfl
    exact .solved (guardedExpand_of_found hnil rfl)
  | cons t rest ih =>
    have hdrop := drop_succ_of_drop hrest
    cases hwr : twWitnessOracleGoalReach s (t :: rest) d with
    | error e =>
      rw [walk_cons, oracleCached_of_drop d s hrest, hwr] at h
      exact h.elim
    | ok wr =>
      cases hf : wr.found with
      | false =>
        rw [walk_cons, oracleCached_of_drop d s hrest, hwr] at h
        simp [hf, WalkSolves] at h
      | true =>
        have hx : guardedExpand d bl (s, t :: rest) = _ := guardedExpand_of_found hwr hf
        rw [walk_cons_of_drop hrest hwr hf] at h
        rw [treeExpand] at hx
        cases hh : headOf d bl s t with
        | error e => simp [hh, WalkSolves] at h
        | ok head =>
          rw [hh] at h hx
          cases head with
          | met => exact .branch hx List.mem_cons_self (ih hdrop h)
          | acts c s' =>
            obtain ⟨q', rfl, hq⟩ := walkSolves_prepend.mp h
            exact .branch hx List.mem_cons_self (ih hdrop hq)
          | stuck => exact h.elim
          | undecided =>
            obtain ⟨y, r, rfl, hy, hr⟩ := h
            exact .branch hx hy hr

theorem seek_of_walk
    (h : WalkSolves d bl (Solves (seekExpand d bl)) q
      (walk d bl x.2 (twBuildWitnessScanCache x.2 d) 0 x.1 [] x.2)) : Solves (seekExpand d bl) x q := by
  cases hw : walk d bl x.2 (twBuildWitnessScanCache x.2 d) 0 x.1 [] x.2 with
  | error e =>
    rw [hw] at h
    exact h.elim
  | ok w =>
    have hx := seekExpand_eq_ok_iff.mpr ⟨w, hw, rfl⟩
    rw [hw] at h
    cases w with
    | done p =>
      obtain rfl : p = q := h
      exact .solved hx
    | dead => exact h.elim
    | branch p s t rest =>
      obtain ⟨y, r, rfl, hy, hr⟩ := h
      exact .branch hx hy hr

theorem walk_of_guarded (h : Solves (guardedExpand d bl) x q) (hrest : tasks.drop idx = x.2) :
    WalkSolves d bl (Solves (seekExpand d bl)) q
      (walk d bl tasks (twBuildWitnessScanCache tasks d) idx x.1 [] x.2) := by
  induction h generalizing tasks idx with
  | @solved x p h =>
    obtain ⟨hx, rfl⟩ := treeExpand_solved (guardedExpand_inv h (by simp)).1
    rw [hx]
    exact rfl
  | @branch x y p q alts h hy hs ih =>
    obtain ⟨htree, wr, hwr, hf⟩ := guardedExpand_inv h (by simp)
    obtain ⟨s, _ | ⟨t, rest⟩⟩ := x
    · simp [treeExpand] at htree
    · rw [walk_cons_of_drop hrest hwr hf]
      have hdrop := drop_succ_of_drop hrest
      obtain ⟨hh, hex⟩ | ⟨c, s', hh, hex⟩ | ⟨-, hex⟩ | ⟨hh, hex⟩ := treeExpand_cons_inv htree
      · cases hex
        cases List.mem_singleton.mp hy
        rw [hh]
        exact ih hdrop
      · cases hex
        cases List.mem_singleton.mp hy
        rw [hh]
        exact walkSolves_prepend.mpr ⟨q, rfl, ih hdrop⟩
      · cases hex
      · cases hex
        rw [hh]
        -- The walk ends here, and the alternative starts a walk of its own.
        exact ⟨y, q, rfl, hy, seek_of_walk (ih List.drop_zero)⟩

/-- `tw_seek_plan` can find exactly the solutions along which the oracle says yes to every list. -/
theorem seekSolves_iff : Solves (seekExpand d bl) x q ↔ Solves (guardedExpand d bl) x q := by
  refine ⟨fun h => ?_, fun h => seek_of_walk (walk_of_guarded h List.drop_zero)⟩
  induction h with
  | @solved x p h =>
    obtain ⟨w, hw, hex⟩ := seekExpand_eq_ok_iff.mp h
    refine guarded_of_walk List.drop_zero ?_
    rw [hw]
    cases w with
    | done plan =>
      cases hex
      exact rfl
    | dead => cases hex
    | branch p s t rest => cases hex
  | @branch x y p q alts h hy _ ih =>
    obtain ⟨w, hw, hex⟩ := seekExpand_eq_ok_iff.mp h
    refine guarded_of_walk List.drop_zero ?_
    rw [hw]
    cases w with
    | done plan => cases hex
    | dead => cases hex
    | branch p' s t rest =>
      cases hex
      exact ⟨y, q, rfl, hy, ih⟩

end Guarded

end WeftWarp
