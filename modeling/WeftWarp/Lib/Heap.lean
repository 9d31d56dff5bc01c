import Mathlib.Data.List.Basic

/-! # Heaps that grow

A heap is a list of cells, and a pointer is a place in it. Of a cell only a part is of interest, its view: the rest may
change at any time. A program that allocates, reads, and writes only to what it has allocated itself leaves the view of
every cell of its initial heap as it was. -/

namespace WeftWarp
namespace Heap

variable {α β γ δ : Type} {view : α → β} {h h₁ h₂ h₃ : List α}

/-- The pointer leads to a cell with the view `b`. -/
def Points (view : α → β) (h : List α) (p : Nat) (b : β) : Prop := h[p]?.map view = some b

/-- Every cell is still there with the same view. -/
def Extends (view : α → β) (h₁ h₂ : List α) : Prop := ∀ p b, Points view h₁ p b → Points view h₂ p b

theorem Extends.refl (h : List α) : Extends view h h := fun _ _ points => points

theorem Extends.trans (first : Extends view h₁ h₂) (second : Extends view h₂ h₃) : Extends view h₁ h₃ :=
  fun p b points => second p b (first p b points)

variable {b : β} {Q : γ → List α → Prop} {a : γ} {R : δ → List α → Prop} {f : γ → StateM (List α) δ}
  {m : StateM (List α) γ} {p : Nat}

theorem Points.lt (points : Points view h p b) : p < h.length := by
  obtain ⟨a, found, -⟩ := Option.map_eq_some_iff.mp points
  exact (List.getElem?_eq_some_iff.mp found).1

theorem Points.cell (points : Points view h p b) : ∃ a, h[p]? = some a ∧ view a = b :=
  Option.map_eq_some_iff.mp points

/-! ### Allocating and writing -/

theorem extends_append (h more : List α) : Extends view h (h ++ more) := by
  intro p b points
  rw [Points, List.getElem?_append_left points.lt]
  exact points

theorem points_append (h : List α) (a : α) : Points view (h ++ [a]) h.length (view a) := by
  simp [Points]

theorem points_set (inside : p < h.length) (a : α) : Points view (h.set p a) p (view a) := by
  simp [Points, List.getElem?_set_self inside]

/-- Writing what has the same view. -/
theorem extends_set_same {a : α} (points : Points view h p (view a)) : Extends view h (h.set p a) := by
  intro q b points'
  by_cases same : p = q
  · subst same
    obtain rfl := Option.some.inj (points.symm.trans points')
    exact points_set points.lt a
  · rwa [Points, List.getElem?_set_ne same]

theorem extends_set_fresh (grown : Extends view h₁ h₂) (fresh : h₁.length ≤ p) (a : α) :
    Extends view h₁ (h₂.set p a) := by
  intro q b points
  have other : p ≠ q := fun same => absurd points.lt (by omega)
  rw [Points, List.getElem?_set_ne other]
  exact grown q b points

/-! ### Programs -/

theorem run_bind {σ : Type} (m : StateM σ γ) (f : γ → StateM σ δ) (s : σ) :
    (m >>= f).run s = (f (m.run s).1).run (m.run s).2 := rfl

/-- The program leaves the cells as they are, and its result and the heap behind it have the property `Q`. -/
def Yields (view : α → β) (m : StateM (List α) γ) (h : List α) (Q : γ → List α → Prop) : Prop :=
  Extends view h (m.run h).2 ∧ Q (m.run h).1 (m.run h).2

theorem Yields.pure (holds : Q a h) : Yields view (pure a) h Q := ⟨.refl h, holds⟩

theorem Yields.bind (first : Yields view m h Q) (next : ∀ a h', Extends view h h' → Q a h' → Yields view (f a) h' R) :
    Yields view (m >>= f) h R := by
  obtain ⟨grown, holds⟩ := first
  obtain ⟨grown', holds'⟩ := next _ _ grown holds
  exact ⟨grown.trans grown', holds'⟩

/-- The program returns `a`. -/
def Returns (view : α → β) (m : StateM (List α) γ) (h : List α) (a : γ) : Prop := Yields view m h fun b _ => b = a

theorem Returns.pure : Returns view (pure a) h a := Yields.pure rfl

/-- The next program goes on with what the first one returns. -/
theorem Returns.bind (first : Returns view m h a) (next : ∀ h', Extends view h h' → Yields view (f a) h' R) :
    Yields view (m >>= f) h R :=
  Yields.bind first fun _ h' grown same => same ▸ next h' grown

/-! ### Programs that write to their own cells

A program has some cells of its own, and all that it allocates. -/

/-- The program writes only to cells of its own, and its result has the property `Q`. -/
def Keeps (own : Nat → Prop) (m : StateM (List α) γ) (Q : γ → Prop) : Prop :=
  ∀ h : List α, (∀ q, h.length ≤ q → own q) →
    (∀ q, ¬ own q → (m.run h).2[q]? = h[q]?) ∧ h.length ≤ (m.run h).2.length ∧ Q (m.run h).1

section Keeps
variable {own : Nat → Prop} {m : StateM (List α) γ} {f : γ → StateM (List α) δ} {Q : γ → Prop} {R : δ → Prop}

theorem Keeps.pure {a : γ} (holds : Q a) : Keeps own (pure a : StateM (List α) γ) Q :=
  fun h _ => ⟨fun _ _ => rfl, Nat.le_refl h.length, holds⟩

theorem Keeps.bind (first : Keeps own m Q) (next : ∀ a, Q a → Keeps own (f a) R) : Keeps own (m >>= f) R := by
  intro h fresh
  obtain ⟨same, longer, holds⟩ := first h fresh
  obtain ⟨same', longer', holds'⟩ := next _ holds _ fun q beyond => fresh q (Nat.le_trans longer beyond)
  exact ⟨fun q foreign => (same' q foreign).trans (same q foreign), Nat.le_trans longer longer', holds'⟩

end Keeps

end Heap
end WeftWarp
