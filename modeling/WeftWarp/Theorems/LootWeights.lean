import WeftWarp.Loot
import WeftWarp.Theorems.S7Numbers
import Mathlib.Algebra.BigOperators.Group.List.Basic
import Mathlib.Algebra.Order.BigOperators.Group.List
import Mathlib.Algebra.Ring.Int.Defs

/-! # Loot weights

Each draw below the total weight falls on an entry, and on an item as often as its entries weigh. That holds of exact
integers, and of the numbers of s7 as long as the total weight has 64 bits. -/

namespace WeftWarp
namespace Loot
open S7

section
variable {Item : Type} {table : Table Item} {r acc : Int}

/-- The total weight in exact integers. -/
def weight (table : Table Item) : Int := totalWeight table

/-- The entry whose item `pick` returns, none if the table is passed through. -/
def picked : Table Item → Int → Int → Option (Item × Int64)
  | [], _, _ => none
  | entry :: table, r, acc => if r < acc + entry.2.toInt then some entry else picked table r (acc + entry.2.toInt)

theorem pick_eq_picked [OfNat Item 0] (table : Table Item) (r acc : Int) :
    pick table r acc = ((picked table r acc).map Prod.fst).getD 0 := by
  induction table generalizing acc with
  | nil => rfl
  | cons entry table ih =>
    simp only [pick, picked, add_int, ofInteger_int, lt_int]
    split
    · rfl
    · exact ih _

theorem weight_eq_sum (table : Table Item) : weight table = (table.map fun entry => entry.2.toInt).sum := by
  rw [List.sum_eq_foldl, List.foldl_map]
  rfl

theorem weight_cons (entry : Item × Int64) (table : Table Item) :
    weight (entry :: table) = entry.2.toInt + weight table := by
  rw [weight_eq_sum, weight_eq_sum, List.map_cons, List.sum_cons]

/-- No weight is negative. -/
def Nonneg (table : Table Item) : Prop := ∀ entry ∈ table, 0 ≤ entry.2.toInt

theorem Nonneg.tail {entry : Item × Int64} (nonneg : Nonneg (entry :: table)) : Nonneg table :=
  fun entry mem => nonneg entry (List.mem_cons_of_mem _ mem)

theorem Nonneg.weight (nonneg : Nonneg table) : 0 ≤ weight table := by
  rw [weight_eq_sum]
  apply List.sum_nonneg
  intro w mem
  obtain ⟨entry, listed, rfl⟩ := List.mem_map.mp mem
  exact nonneg entry listed

theorem exists_picked (start : acc ≤ r) (below : r < acc + weight table) :
    ∃ entry ∈ table, 0 < entry.2.toInt ∧ picked table r acc = some entry := by
  induction table generalizing acc with
  | nil => exact absurd below (by simpa [weight_eq_sum] using start)
  | cons entry table ih =>
    rw [weight_cons] at below
    rw [picked]
    by_cases here : r < acc + entry.2.toInt
    · exact ⟨entry, List.mem_cons_self, by omega, if_pos here⟩
    · obtain ⟨found, mem, positive, eq⟩ := @ih (acc + entry.2.toInt) (by omega) (by omega)
      exact ⟨found, List.mem_cons_of_mem _ mem, positive, (if_neg here).trans eq⟩

/-! ### Draws of an item -/

variable [DecidableEq Item]

/-- The weight of an item, over all its entries. -/
def weightOf (table : Table Item) (item : Item) : Int := weight (table.filter fun entry => entry.1 = item)

theorem weightOf_cons (entry : Item × Int64) (table : Table Item) (item : Item) :
    weightOf (entry :: table) item = (if entry.1 = item then entry.2.toInt else 0) + weightOf table item := by
  rw [weightOf, List.filter_cons]
  by_cases same : entry.1 = item
  · rw [if_pos (by simpa using same), weight_cons, if_pos same, weightOf]
  · rw [if_neg (by simpa using same), if_neg same, weightOf, Int.zero_add]

variable [OfNat Item 0]

/-- The number of draws from `acc` on, below the weight of the table, that give the item. -/
def draws (table : Table Item) (item : Item) (acc : Int) : Nat :=
  (List.range (weight table).toNat).countP fun r : Nat => pick table (acc + r) acc = item

omit [DecidableEq Item] in
theorem pick_cons (entry : Item × Int64) (table : Table Item) (r acc : Int) :
    pick (entry :: table) r acc =
      if r < acc + entry.2.toInt then entry.1 else pick table r (acc + entry.2.toInt) := by
  simp only [pick, add_int, ofInteger_int, lt_int]

/-- The draws of the first entry, then those of the rest of the table. -/
theorem draws_cons (entry : Item × Int64) (nonneg : Nonneg (entry :: table)) (item : Item) (acc : Int) :
    draws (entry :: table) item acc
      = (if entry.1 = item then entry.2.toInt.toNat else 0) + draws table item (acc + entry.2.toInt) := by
  have head := nonneg entry List.mem_cons_self
  have rest := nonneg.tail.weight
  rw [draws, weight_cons, Int.toNat_add head rest, List.range_add, List.countP_append, List.countP_map, draws]
  congr 1
  · have first : ∀ r ∈ List.range entry.2.toInt.toNat, pick (entry :: table) (acc + r) acc = entry.1 := by
      intro r mem
      have below := List.mem_range.mp mem
      rw [pick_cons, if_pos (by omega)]
    split
    · rename_i same
      refine (List.countP_eq_length.mpr fun r mem => ?_).trans List.length_range
      exact decide_eq_true ((first r mem).trans same)
    · rename_i other
      refine List.countP_eq_zero.mpr fun r mem => ?_
      rw [first r mem]
      exact fun same => other (of_decide_eq_true same)
  · refine List.countP_congr fun r _ => ?_
    have after : ¬acc + ↑(entry.2.toInt.toNat + r) < acc + entry.2.toInt := by omega
    have same : acc + ↑(entry.2.toInt.toNat + r) = acc + entry.2.toInt + (r : Int) := by omega
    rw [Function.comp_apply, pick_cons, if_neg after, same]

theorem draws_eq_weightOf (nonneg : Nonneg table) (item : Item) (acc : Int) :
    (draws table item acc : Int) = weightOf table item := by
  induction table generalizing acc with
  | nil => rfl
  | cons entry table ih =>
    have head := nonneg entry List.mem_cons_self
    rw [draws_cons entry nonneg, weightOf_cons, Int.natCast_add, ih nonneg.tail]
    congr 1
    split
    · exact Int.toNat_of_nonneg head
    · rfl

/-! ### Numbers of s7 -/

variable {R : Type} [Double R]

omit [DecidableEq Item] [OfNat Item 0] in
theorem foldl_ofInt (nonneg : Nonneg table) (start : 0 ≤ acc) (fits : acc + weight table < 2 ^ 63) :
    table.foldl (fun acc entry => Arithmetic.add acc (Arithmetic.ofInteger entry.2)) (Number.ofInt acc : Number R) =
      Number.ofInt (acc + weight table) := by
  induction table generalizing acc with
  | nil =>
    rw [weight_eq_sum, List.map_nil, List.sum_nil, Int.add_zero]
    rfl
  | cons entry table ih =>
    have head := nonneg entry List.mem_cons_self
    have rest := nonneg.tail.weight
    rw [weight_cons] at fits ⊢
    rw [List.foldl_cons, Number.add_ofInteger _ ⟨by omega, by omega⟩ ⟨by omega, by omega⟩,
      ih nonneg.tail (by omega) (by omega), Int.add_assoc]

omit [DecidableEq Item] [OfNat Item 0] in
theorem totalWeight_ofInt (nonneg : Nonneg table) (fits : weight table < 2 ^ 63) :
    (totalWeight table : Number R) = Number.ofInt (weight table) := by
  have sum := foldl_ofInt (R := R) nonneg (Int.le_refl 0) (by rwa [Int.zero_add])
  rwa [Int.zero_add] at sum

omit [DecidableEq Item] in
theorem pick_ofInt (nonneg : Nonneg table) (start : 0 ≤ acc) (fits : acc + weight table < 2 ^ 63) (draw : Fits r) :
    pick table (Number.ofInt r : Number R) (Number.ofInt acc) = pick table r acc := by
  induction table generalizing acc with
  | nil => rfl
  | cons entry table ih =>
    have head := nonneg entry List.mem_cons_self
    have rest := nonneg.tail.weight
    rw [weight_cons] at fits
    have sum : Fits (acc + entry.2.toInt) := ⟨by omega, by omega⟩
    have added := Number.add_ofInteger (R := R) entry.2 ⟨by omega, by omega⟩ sum
    rw [pick_cons]
    simp only [pick, added, Number.lt_ofInt draw sum, lt_int, ih nonneg.tail (by omega : 0 ≤ acc + entry.2.toInt) (by omega)]

/-! ### Rolls -/

omit [DecidableEq Item] [OfNat Item 0] in
theorem nonzero_weight (positive : 0 < weight table) (fits : weight table < 2 ^ 63) :
    Arithmetic.eq (Number.ofInt (weight table) : Number R) (Arithmetic.ofInteger 0) = false := by
  rw [Number.eq_ofInteger 0 ⟨by omega, fits⟩, Bool.eq_false_iff, Ne, eq_int, ofInteger_zero]
  omega

omit [DecidableEq Item] [OfNat Item 0] in
theorem rngRange_ofInt (seed : Nat) (positive : 0 < weight table) (fits : weight table < 2 ^ 63) :
    ∃ r, 0 ≤ r ∧ r < weight table ∧ rngRange seed (Number.ofInt (weight table) : Number R) = Number.ofInt r := by
  refine ⟨Int.fmod (Int64.ofNat (xorshift32Next32 seed)).toInt (weight table), Int.fmod_nonneg_of_pos _ positive,
    Int.fmod_lt_of_pos _ positive, ?_⟩
  have total : Fits (weight table) := ⟨by omega, fits⟩
  have nonzero := nonzero_weight (R := R) positive fits
  rw [rngRange, nonzero, Number.modulo_ofInt _ total]
  rfl

theorem lootRoll_honours_weights (R : Type) [Double R] (nonneg : Nonneg table) (positive : 0 < weight table)
    (fits : weight table < 2 ^ 63) :
    (∀ item, ((List.range (weight table).toNat).countP fun r : Nat =>
      pick table (Number.ofInt r : Number R) (Arithmetic.ofInteger 0) = item : Int) = weightOf table item) ∧
    (∀ r, 0 ≤ r → r < weight table → ∃ entry ∈ table, picked table r 0 = some entry ∧
      pick table (Number.ofInt r : Number R) (Arithmetic.ofInteger 0) = entry.1) ∧
    ∀ seed < 2 ^ 32, ∃ entry ∈ table, 0 < entry.2.toInt ∧ lootRoll (Number R) seed table = entry.1 := by
  have exact : ∀ r, 0 ≤ r → r < weight table →
      pick table (Number.ofInt r : Number R) (Arithmetic.ofInteger 0) = pick table r 0 := by
    intro r start below
    exact pick_ofInt nonneg (Int.le_refl 0) (by rwa [Int.zero_add]) ⟨by omega, by omega⟩
  have found : ∀ r, 0 ≤ r → r < weight table → ∃ entry ∈ table, 0 < entry.2.toInt ∧ picked table r 0 = some entry ∧
      pick table (Number.ofInt r : Number R) (Arithmetic.ofInteger 0) = entry.1 := by
    intro r start below
    obtain ⟨entry, mem, weighs, eq⟩ := exists_picked start (by rwa [Int.zero_add])
    exact ⟨entry, mem, weighs, eq, by rw [exact r start below, pick_eq_picked, eq]; rfl⟩
  refine ⟨fun item => ?_, fun r start below => ?_, fun seed _ => ?_⟩
  · have count := draws_eq_weightOf nonneg item 0
    simp only [draws, Int.zero_add] at count
    rw [← count]
    refine congrArg Nat.cast (List.countP_congr fun r mem => ?_)
    have below := List.mem_range.mp mem
    rw [exact r (by omega) (by omega)]
  · obtain ⟨entry, mem, -, eq, returned⟩ := found r start below
    exact ⟨entry, mem, eq, returned⟩
  · obtain ⟨r, start, below, drawn⟩ := rngRange_ofInt (R := R) seed positive fits
    obtain ⟨entry, mem, weighs, -, returned⟩ := found r start below
    refine ⟨entry, mem, weighs, ?_⟩
    have nonzero := nonzero_weight (R := R) positive fits
    simp only [lootRoll, totalWeight_ofInt nonneg fits, nonzero, drawn, returned, Bool.false_eq_true, if_false]

end

/-- The table of the golden test. -/
def goldenTable : Table Int := [(1, 10), (2, 20), (3, 5)]

theorem lootRoll_honours_golden :
    ((List.range (weight goldenTable).toNat).countP fun r : Nat =>
      pick goldenTable (Number.ofInt r : Number IntegralDouble) (Arithmetic.ofInteger 0) = 2 : Int) = 20 ∧
    lootRoll (Number IntegralDouble) 42 goldenTable = 3 := by
  have nonneg : Nonneg goldenTable := by simp only [Nonneg, goldenTable, List.forall_mem_cons]; decide
  exact ⟨(lootRoll_honours_weights IntegralDouble nonneg (by decide) (by decide)).1 2, by decide⟩

/-- The last sum of the table is a double, which is not greater than the draw. -/
theorem pick_overflow :
    let table : Table Int := [(1, 9223372036854775807), (2, 1)]
    Nonneg table ∧ weight table = 2 ^ 63 ∧
      picked table 9223372036854775807 0 = some (2, 1) ∧
      pick table (.integer 9223372036854775807 : Number IntegralDouble) (.integer 0) = 0 := by
  refine ⟨?_, by decide, by decide, by decide +kernel⟩
  simp only [Nonneg, List.forall_mem_cons]
  decide

end Loot
end WeftWarp
