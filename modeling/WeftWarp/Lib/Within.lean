import Mathlib.Data.Finset.Card
import Mathlib.Data.Finset.Filter
import Mathlib.Logic.Relation
import Mathlib.Order.Monotone.Basic

/-! Reaching a goal along a relation, with and without a bound on the length of the chain.

    `Within R P n x` allows chains of fewer than `n` steps. On a finite set of nodes the bound can be dropped:
    the sets of nodes within `n` grow with `n` and stand still once two of them agree. -/

namespace WeftWarp

variable {α : Type} {R : α → α → Prop} {P : α → Prop}

/-- A chain of fewer than `n` steps of `R` leads from `x` to a node with `P`. -/
def Within (R : α → α → Prop) (P : α → Prop) : Nat → α → Prop
  | 0, _ => False
  | n + 1, x => P x ∨ ∃ y, R x y ∧ Within R P n y

/-- A chain of `R` leads from `x` to a node with `P`. -/
def Reaches (R : α → α → Prop) (P : α → Prop) (x : α) : Prop := ∃ y, Relation.ReflTransGen R x y ∧ P y

theorem Within.succ : ∀ {n : Nat} {x : α}, Within R P n x → Within R P (n + 1) x
  | _ + 1, _, .inl h => .inl h
  | _ + 1, _, .inr ⟨y, hy, h⟩ => .inr ⟨y, hy, h.succ⟩

theorem Within.mono {m n : Nat} {x : α} (h : Within R P m x) (hmn : m ≤ n) : Within R P n x := by
  induction hmn with
  | refl => exact h
  | step _ ih => exact ih.succ

theorem Within.reaches : ∀ {n : Nat} {x : α}, Within R P n x → Reaches R P x
  | _ + 1, x, .inl h => ⟨x, .refl, h⟩
  | _ + 1, _, .inr ⟨_, hy, h⟩ => by
    obtain ⟨z, hz, hp⟩ := h.reaches
    exact ⟨z, .head hy hz, hp⟩

theorem Reaches.within {x : α} (h : Reaches R P x) : ∃ n, Within R P n x := by
  obtain ⟨y, hxy, hp⟩ := h
  induction hxy using Relation.ReflTransGen.head_induction_on with
  | refl => exact ⟨1, .inl hp⟩
  | head hstep _ ih =>
    obtain ⟨n, hn⟩ := ih
    exact ⟨n + 1, .inr ⟨_, hstep, hn⟩⟩

/-! ### The bound on a finite set of nodes -/

section Bound
variable {V : Finset α} (hP : ∀ x, P x → x ∈ V) (hR : ∀ x y, R x y → x ∈ V)
include hP hR

theorem Within.mem {n : Nat} {x : α} (h : Within R P n x) : x ∈ V := by
  cases n with
  | zero => exact h.elim
  | succ n =>
    rcases h with h | ⟨y, hy, -⟩
    · exact hP x h
    · exact hR x y hy

/-- On nodes of a finite set, chains that visit no more nodes than the set has reach everything. -/
theorem Reaches.within_card {x : α} (h : Reaches R P x) : Within R P V.card x := by
  classical
  let level (n : Nat) : Finset α := V.filter (Within R P n)
  have mem_level : ∀ {n : Nat} {y : α}, y ∈ level n ↔ Within R P n y := by
    intro n y
    simp only [level, Finset.mem_filter, and_iff_right_iff_imp]
    exact Within.mem hP hR
  have grows : ∀ {m n : Nat}, m ≤ n → level m ⊆ level n := fun hmn y hy =>
    mem_level.mpr ((mem_level.mp hy).mono hmn)
  -- Two equal levels in a row have equal successors.
  have still : ∀ m, (level m).card = (level (m + 1)).card → (level (m + 1)).card = (level (m + 2)).card := by
    intro m hm
    have heq : level m = level (m + 1) := Finset.eq_of_subset_of_card_le (grows m.le_succ) hm.ge
    refine congrArg Finset.card (Finset.Subset.antisymm (grows (m + 1).le_succ) fun y hy => ?_)
    rw [mem_level] at hy ⊢
    rcases hy with hp | ⟨z, hz, hw⟩
    · exact .inl hp
    · exact .inr ⟨z, hz, mem_level.mp (heq ▸ mem_level.mpr hw)⟩
  obtain ⟨n, hn⟩ := h.within
  have hstab := Nat.stabilises_of_monotone (n := max n V.card) (fun _ _ hmn => Finset.card_le_card (grows hmn))
    (fun m => Finset.card_le_card (Finset.filter_subset _ _)) still (le_max_right _ _)
  have heq : level V.card = level (max n V.card) :=
    Finset.eq_of_subset_of_card_le (grows (le_max_right _ _)) hstab.le
  exact mem_level.mp (heq ▸ mem_level.mpr (hn.mono (le_max_left _ _)))

end Bound
end WeftWarp
