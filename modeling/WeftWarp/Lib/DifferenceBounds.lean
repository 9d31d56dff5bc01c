import Mathlib.Algebra.Order.Group.Defs
import Mathlib.Algebra.Order.Monoid.WithTop
import Mathlib.Algebra.Order.Sub.Defs
import Mathlib.Data.Finset.Max
import Mathlib.Data.List.ProdSigma

/-! # Difference bounds

A matrix of bounds asks for times with `t j - t i ≤ d i j`; `⊤` asks for nothing. The Floyd–Warshall loops work in
place and tighten the bounds without losing a solution. There is a solution exactly if they leave no negative number
on the diagonal: then every bound is at most the sum of two others by way of a third node, and the least bound of a
column is a time. -/

namespace WeftWarp

/-- For each pair of nodes, a bound on how much later the second is. -/
abbrev Bounds (ι G : Type) := ι → ι → WithTop G

namespace Bounds
variable {ι G : Type} [DecidableEq ι] [AddCommGroup G] [LinearOrder G] {nodes : List ι}

/-- The times keep every bound. -/
def Meets (nodes : List ι) (d : Bounds ι G) (t : ι → G) : Prop :=
  ∀ i ∈ nodes, ∀ j ∈ nodes, ((t j - t i : G) : WithTop G) ≤ d i j

/-- The bounds with one entry replaced. -/
def put (d : Bounds ι G) (i j : ι) (v : WithTop G) : Bounds ι G :=
  fun a b => if a = i ∧ b = j then v else d a b

/-- The bound from `i` to `j` is lowered to the sum by way of `k`. -/
def relax (k : ι) (d : Bounds ι G) (i j : ι) : Bounds ι G := d.put i j (min (d i j) (d i k + d k j))

/-- All bounds by way of one node, row by row. -/
def pivot (nodes : List ι) (d : Bounds ι G) (k : ι) : Bounds ι G :=
  nodes.foldl (fun d i => nodes.foldl (fun d j => relax k d i j) d) d

/-- Every node as a pivot, one after the other. -/
def close (nodes : List ι) (d : Bounds ι G) : Bounds ι G := nodes.foldl (pivot nodes) d

theorem pivot_eq_foldl (nodes : List ι) (d : Bounds ι G) (k : ι) :
    pivot nodes d k = (nodes ×ˢ nodes).foldl (fun d p => relax k d p.1 p.2) d := by
  unfold pivot
  rw [show nodes ×ˢ nodes = nodes.flatMap fun i => nodes.map (i, ·) from rfl, List.foldl_flatMap]
  simp only [List.foldl_map]

omit [AddCommGroup G] [LinearOrder G] in
theorem put_self (d : Bounds ι G) (i j : ι) : d.put i j (d i j) = d := by
  funext a b
  unfold put
  split
  · rename_i here
    rw [here.1, here.2]
  · rfl

/-! ### Bounds only fall, and no solution is lost -/

theorem relax_le (k : ι) (d : Bounds ι G) (i j a b : ι) : relax k d i j a b ≤ d a b := by
  unfold relax put
  split
  · rename_i here
    rw [here.1, here.2]
    exact min_le_left _ _
  · exact le_rfl

theorem pivot_le (nodes : List ι) (d : Bounds ι G) (k a b : ι) : pivot nodes d k a b ≤ d a b := by
  rw [pivot_eq_foldl]
  refine List.foldlRecOn (motive := fun e : Bounds ι G => e a b ≤ d a b) _ _ le_rfl fun e below p _ => ?_
  exact (relax_le k e p.1 p.2 a b).trans below

theorem foldl_pivot_le (nodes ks : List ι) (d : Bounds ι G) (a b : ι) : ks.foldl (pivot nodes) d a b ≤ d a b :=
  List.foldlRecOn (motive := fun e : Bounds ι G => e a b ≤ d a b) ks _ le_rfl fun e below k _ => (pivot_le nodes e k a b).trans below

variable {d : Bounds ι G} {t : ι → G} {k : ι}

omit [DecidableEq ι] in
theorem Meets.mono {e : Bounds ι G} (meets : Meets nodes d t) (below : ∀ a b, d a b ≤ e a b) : Meets nodes e t :=
  fun i hi j hj => (meets i hi j hj).trans (below i j)

variable [IsOrderedAddMonoid G]

theorem Meets.relax (meets : Meets nodes d t) {i j : ι} (hk : k ∈ nodes) (hi : i ∈ nodes) (hj : j ∈ nodes) :
    Meets nodes (relax k d i j) t := by
  intro a ha b hb
  unfold Bounds.relax put
  split
  · rename_i here
    obtain ⟨rfl, rfl⟩ := here
    refine le_min (meets a ha b hb) ?_
    calc ((t b - t a : G) : WithTop G) = ((t k - t a : G) : WithTop G) + ((t b - t k : G) : WithTop G) := by
          rw [← WithTop.coe_add, add_comm, sub_add_sub_cancel]
      _ ≤ d a k + d k b := add_le_add (meets a ha k hk) (meets k hk b hb)
  · exact meets a ha b hb

theorem Meets.close (meets : Meets nodes d t) : Meets nodes (close nodes d) t := by
  refine List.foldlRecOn (motive := fun e => Meets nodes e t) nodes _ meets fun e meets k hk => ?_
  rw [pivot_eq_foldl]
  refine List.foldlRecOn (motive := fun e => Meets nodes e t) _ _ meets fun e meets p hp => ?_
  obtain ⟨hi, hj⟩ := List.mem_product.mp hp
  exact meets.relax hk hi hj

/-! ### One pivot -/

/-- If the pivot has no negative loop, its row and its column stay as they are. -/
theorem relax_row (loop : 0 ≤ d k k) (i j b : ι) : relax k d i j k b = d k b := by
  unfold relax put
  split
  · rename_i here
    obtain ⟨rfl, rfl⟩ := here
    exact min_eq_left (le_add_of_nonneg_left loop)
  · rfl

theorem relax_column (loop : 0 ≤ d k k) (i j a : ι) : relax k d i j a k = d a k := by
  unfold relax put
  split
  · rename_i here
    obtain ⟨rfl, rfl⟩ := here
    exact min_eq_left (le_add_of_nonneg_right loop)
  · rfl

theorem foldl_relax (steps : List (ι × ι)) (loop : 0 ≤ d k k) (a b : ι) :
    steps.foldl (fun d p => relax k d p.1 p.2) d a b =
      if (a, b) ∈ steps then min (d a b) (d a k + d k b) else d a b := by
  induction steps generalizing d with
  | nil => simp
  | cons p steps ih =>
    have row := relax_row loop p.1 p.2
    have column := relax_column loop p.1 p.2
    rw [List.foldl_cons, ih (by rw [row]; exact loop), row, column]
    by_cases here : a = p.1 ∧ b = p.2
    · obtain ⟨rfl, rfl⟩ := here
      simp [relax, put]
    · have elsewhere : (a, b) ≠ p := fun same => here ⟨congrArg Prod.fst same, congrArg Prod.snd same⟩
      simp only [relax, put, if_neg here, List.mem_cons, elsewhere, false_or]

theorem pivot_apply (loop : 0 ≤ d k k) {a b : ι} (ha : a ∈ nodes) (hb : b ∈ nodes) :
    pivot nodes d k a b = min (d a b) (d a k + d k b) := by
  rw [pivot_eq_foldl, foldl_relax _ loop, if_pos (List.mem_product.mpr ⟨ha, hb⟩)]

/-! ### Closed bounds -/

/-- The way by `k` is no shorter than the direct one. -/
def ClosedAt (nodes : List ι) (d : Bounds ι G) (k : ι) : Prop :=
  ∀ i ∈ nodes, ∀ j ∈ nodes, d i j ≤ d i k + d k j

theorem closedAt_pivot_self (loop : 0 ≤ d k k) (hk : k ∈ nodes) : ClosedAt nodes (pivot nodes d k) k := by
  intro i hi j hj
  have column : min (d i k) (d i k + d k k) = d i k := min_eq_left (le_add_of_nonneg_right loop)
  have row : min (d k j) (d k k + d k j) = d k j := min_eq_left (le_add_of_nonneg_left loop)
  rw [pivot_apply loop hi hj, pivot_apply loop hi hk, pivot_apply loop hk hj, column, row]
  exact min_le_right _ _

/-- A way by `l` that a pivot has shortened goes through the pivot, and the direct one was lowered to that. -/
theorem ClosedAt.pivot {l : ι} (closed : ClosedAt nodes d l) (loop : 0 ≤ d k k) (hk : k ∈ nodes) (hl : l ∈ nodes) :
    ClosedAt nodes (pivot nodes d k) l := by
  intro i hi j hj
  rw [pivot_apply loop hi hj, pivot_apply loop hi hl, pivot_apply loop hl hj]
  rcases min_choice (d i l) (d i k + d k l) with direct | byPivot <;>
    rcases min_choice (d l j) (d l k + d k j) with direct' | byPivot'
  · rw [direct, direct']
    exact (min_le_left _ _).trans (closed i hi j hj)
  · rw [direct, byPivot', ← add_assoc]
    exact (min_le_right _ _).trans (add_le_add_left (closed i hi k hk) _)
  · rw [byPivot, direct', add_assoc]
    exact (min_le_right _ _).trans (add_le_add_right (closed k hk j hj) _)
  · rw [byPivot, byPivot']
    refine (min_le_right _ _).trans ?_
    calc d i k + d k j ≤ d i k + (d k k + d k j) := add_le_add_right (le_add_of_nonneg_left loop) _
      _ ≤ d i k + (d k l + d l k + d k j) := add_le_add_right (add_le_add_left (closed k hk k hk) _) _
      _ = d i k + d k l + (d l k + d k j) := by simp only [add_assoc]

theorem closedAt_foldl_pivot {ks : List ι} (sub : ∀ k ∈ ks, k ∈ nodes)
    (loops : ∀ i ∈ nodes, 0 ≤ ks.foldl (Bounds.pivot nodes) d i i) {l : ι} (hl : l ∈ nodes)
    (closed : l ∈ ks ∨ ClosedAt nodes d l) : ClosedAt nodes (ks.foldl (Bounds.pivot nodes) d) l := by
  induction ks generalizing d with
  | nil =>
    rcases closed with mem | closed
    · cases mem
    · exact closed
  | cons k ks ih =>
    have hk := sub k List.mem_cons_self
    have loop : 0 ≤ d k k := (loops k hk).trans (foldl_pivot_le nodes (k :: ks) d k k)
    refine ih (fun k mem => sub k (List.mem_cons_of_mem _ mem)) loops ?_
    rcases closed with mem | closed
    · rcases List.mem_cons.mp mem with rfl | mem
      · exact .inr (closedAt_pivot_self loop hk)
      · exact .inl mem
    · exact .inr (closed.pivot loop hk hl)

/-! ### Solutions -/

/-- The least bound in the column of a node is its time. -/
theorem exists_meets_of_closed (closed : ∀ k ∈ nodes, ClosedAt nodes d k) (diagonal : ∀ i ∈ nodes, d i i ≠ ⊤) :
    ∃ t, Meets nodes d t := by
  have least : ∀ j ∈ nodes, ∃ m ∈ nodes, ∀ i ∈ nodes, d m j ≤ d i j := by
    intro j hj
    obtain ⟨m, hm, least⟩ := nodes.toFinset.exists_min_image (d · j) ⟨j, List.mem_toFinset.mpr hj⟩
    exact ⟨m, List.mem_toFinset.mp hm, fun i hi => least i (List.mem_toFinset.mpr hi)⟩
  have times : ∀ j, ∃ t : G, j ∈ nodes → (∃ m ∈ nodes, d m j = t) ∧ ∀ i ∈ nodes, (t : WithTop G) ≤ d i j := by
    intro j
    by_cases hj : j ∈ nodes
    · obtain ⟨m, hm, least⟩ := least j hj
      have finite : d m j ≠ ⊤ := ne_top_of_le_ne_top (diagonal j hj) (least j hj)
      obtain ⟨t, same⟩ := WithTop.ne_top_iff_exists.mp finite
      exact ⟨t, fun _ => ⟨⟨m, hm, same.symm⟩, fun i hi => same ▸ least i hi⟩⟩
    · exact ⟨0, fun mem => absurd mem hj⟩
  choose t column using times
  refine ⟨t, fun i hi j hj => ?_⟩
  obtain ⟨⟨m, hm, source⟩, -⟩ := column i hi
  have reached : (t j : WithTop G) ≤ t i + d i j :=
    calc (t j : WithTop G) ≤ d m j := (column j hj).2 m hm
      _ ≤ d m i + d i j := closed i hi m hm j hj
      _ = t i + d i j := by rw [source]
  cases bound : d i j with
  | top => exact le_top
  | coe b =>
    rw [bound, ← WithTop.coe_add, WithTop.coe_le_coe] at reached
    rw [WithTop.coe_le_coe]
    exact sub_le_iff_le_add'.mpr reached

theorem exists_meets_iff (diagonal : ∀ i ∈ nodes, d i i ≠ ⊤) :
    (∃ t, Meets nodes d t) ↔ ∀ i ∈ nodes, 0 ≤ close nodes d i i := by
  constructor
  · rintro ⟨t, meets⟩ i hi
    have loop := meets.close i hi i hi
    rwa [sub_self, WithTop.coe_zero] at loop
  · intro loops
    have closed : ∀ k ∈ nodes, ClosedAt nodes (close nodes d) k := fun k hk =>
      closedAt_foldl_pivot (fun _ mem => mem) loops hk (.inl hk)
    have lower := foldl_pivot_le nodes nodes d
    obtain ⟨t, meets⟩ := exists_meets_of_closed closed fun i hi => ne_top_of_le_ne_top (diagonal i hi) (lower i i)
    exact ⟨t, meets.mono lower⟩

end Bounds
end WeftWarp
