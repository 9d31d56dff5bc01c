import WeftWarp.Theorems.PlanSound

/-! # What the caches change

A failure is cached under its state and task list without the fuel that was left. A branch that ran out of fuel
is then taken for a dead end wherever its list comes up again, also with more fuel. -/

namespace WeftWarp

open TwJson (Thrown)

variable {F : Type} [Cxx F]

/-- The search has found a plan. -/
def finds {α β : Type} : Except Thrown (Option α × β) → Bool
  | .ok (some _, _) => true
  | _ => false

/-- The caches of `tw_seek_plan` do not change whether it finds a plan when no two pairs of state and task list
    met by the search share a key, and none that failed under an alternative would be solved where a later alternative
    comes to it with more fuel. -/
theorem twSeekPlan_fresh_iff_absent (d : TwDomain F) (bl : TwBlacklist) (fuel : Nat) (s : TwState F)
    (tasks : List (TwTask F))
    (hkeys : KeysSeparate (seekExpand d bl) .atChoice (fun x => twSearchKey x.1 x.2) fuel (s, tasks))
    (hagree : FailuresAgree (seekExpand d bl) .atChoice fuel (s, tasks)) :
    finds (twSeekPlan d bl fuel s tasks .fresh) = true ↔ finds (twSeekPlan d bl fuel s tasks .absent) = true := by
  have hfinds {on : Bool} {r : Seek F} {r' : Except Thrown (Option (List (TwCall F)) × List TwMemoKey)}
      (h : Mirrors on r r') : finds r = finds r' := by
    cases h <;> rfl
  have hfst {r r' : Except Thrown (Option (List (TwCall F)) × List TwMemoKey)}
      (h : r.map Prod.fst = r'.map Prod.fst) : finds r = finds r' := by
    match r, r', h with
    | .error _, .error _, _ => rfl
    | .ok (a, _), .ok (b, _), h =>
      simp only [Except.map, Except.ok.injEq] at h
      subst h
      cases a <;> rfl
  rw [hfinds (twSeekPlan_mirrors fuel s tasks carries_fresh), hfinds (twSeekPlan_mirrors fuel s tasks carries_absent)]
  rw [hfst]
  rw [memoSearch_eq_search hkeys hagree, memoSearch_map_of_not_looks fun _ => rfl]

/-- Task `t` reaches `x` over `u` with no fuel left, and directly with fuel to spare. -/
def detourDomain : TwDomain Int where
  actions := .empty
  taskMethods := ((OrderedMap.empty.set "t" [fun _ _ => some [.call ⟨"u", []⟩], fun _ _ => some [.call ⟨"x", []⟩]]).set
    "u" [fun _ _ => some [.call ⟨"x", []⟩]]).set "x" [fun _ _ => some []]
  actionDurations := .empty

/-- A task list of one call, in the empty state. -/
def callOnly (name : String) : Config Int := (.empty, [.call ⟨name, []⟩])

/-- Without caches the second method of `t` finds the empty plan; with them `x` has already failed. No two of
    the pairs met share a key. -/
theorem twSeekPlan_detour :
    KeysSeparate (seekExpand detourDomain []) .atChoice (fun x => twSearchKey x.1 x.2) 2 (callOnly "t") ∧
      finds (twSeekPlan detourDomain [] 2 .empty (callOnly "t").2 .absent) = true ∧
      finds (twSeekPlan detourDomain [] 2 .empty (callOnly "t").2 .fresh) = false := by
  refine ⟨keysSeparate_of_closed (show _ ∈ [callOnly "t", callOnly "u", callOnly "x", (.empty, [])] by simp) ?_
    (by decide +kernel), by decide +kernel⟩
  simp only [List.forall_mem_cons]
  exact ⟨show [callOnly "u", callOnly "x"] ⊆ _ by simp, show [callOnly "x"] ⊆ _ by simp,
    show [(TwState.empty, [])] ⊆ _ by simp, show [] ⊆ _ by simp, List.forall_mem_nil _⟩

/-- The goal to have the lamp on, which is off. -/
def lampRoot : Config Int := (.empty, [.goal ⟨[⟨"lamp", "hall", .bool true⟩]⟩])

/-- The same behind the action that switches the lamp on. -/
def lampNext : Config Int := (.empty, .call ⟨"flip", [.string "hall"]⟩ :: lampRoot.2)

theorem twSeekPlan_fresh_iff_absent_lamp :
    finds (twSeekPlan lampDomain [] 1 .empty lampRoot.2 .fresh) = true ↔
      finds (twSeekPlan lampDomain [] 1 .empty lampRoot.2 .absent) = true := by
  have root : (TwState.empty, lampRoot.2) ∈ [lampRoot, lampNext] := List.mem_cons_self
  have closed : ∀ x ∈ [lampRoot, lampNext], Expansion.nexts (seekExpand lampDomain [] x) ⊆ [lampRoot, lampNext] := by
    simp only [List.forall_mem_cons]
    exact ⟨show [lampNext] ⊆ _ by simp, show [] ⊆ _ by simp, List.forall_mem_nil _⟩
  exact twSeekPlan_fresh_iff_absent lampDomain [] 1 .empty lampRoot.2
    (keysSeparate_of_closed root closed (by decide +kernel)) (failuresAgree_of_closed root closed (by decide +kernel))

end WeftWarp
