import WeftWarp.Loot
import WeftWarp.Lib.XorLinear
import Mathlib.Data.Nat.Factors
import Mathlib.Order.Interval.Finset.Nat
import Mathlib.Tactic.NormNum.Prime

/-! # The period of the random numbers

One step of the generator is linear for exclusive or. The seed 1 has the period `2 ^ 32 - 1`, so that its cycle is all
of the states but 0. -/

namespace WeftWarp
namespace Loot
open Function XorLinear

theorem isLinear_u32 : IsLinear u32 := isLinear_and _

theorem isLinear_xorshift32Next32 : IsLinear xorshift32Next32 := by
  have first : IsLinear fun s => u32 (s ^^^ u32 (s <<< 13)) :=
    isLinear_u32.comp (isLinear_id.xor (isLinear_u32.comp (isLinear_shiftLeft 13)))
  have second : IsLinear fun s => u32 (s ^^^ (s >>> 17)) :=
    isLinear_u32.comp (isLinear_id.xor (isLinear_shiftRight 17))
  have third : IsLinear fun s => u32 (s ^^^ u32 (s <<< 5)) :=
    isLinear_u32.comp (isLinear_id.xor (isLinear_u32.comp (isLinear_shiftLeft 5)))
  exact third.comp (second.comp first)

theorem u32_lt (x : Nat) : u32 x < 2 ^ 32 := Nat.and_lt_two_pow x (by decide)

theorem xorshift32Next32_lt (s : Nat) : xorshift32Next32 s < 2 ^ 32 := u32_lt _

theorem iterate_zero_seed (k : Nat) : xorshift32Next32^[k] 0 = 0 :=
  iterate_fixed isLinear_xorshift32Next32.map_zero k

/-! ### The seed 1 -/

/-- The step, `n` times. -/
def powerOfNext (n x : Nat) : Nat := power (squares (images xorshift32Next32 32) 32) n x

theorem powerOfNext_eq {n x : Nat} (steps : n < 2 ^ 32) (within : x < 2 ^ 32) :
    powerOfNext n x = xorshift32Next32^[n] x :=
  power_squares isLinear_xorshift32Next32 (fun s _ => xorshift32Next32_lt s) steps within

theorem isPeriodicPt_one : IsPeriodicPt xorshift32Next32 (2 ^ 32 - 1) 1 := by
  have computed : powerOfNext (2 ^ 32 - 1) 1 = 1 := by decide +kernel
  rwa [powerOfNext_eq (by decide) (by decide)] at computed

/-- The primes of the period. -/
def periodPrimes : List Nat := [3, 5, 17, 257, 65537]

theorem mem_periodPrimes {p : Nat} (prime : p.Prime) (divides : p ∣ 2 ^ 32 - 1) : p ∈ periodPrimes := by
  have primes : ∀ q ∈ periodPrimes, Prime q := by
    simp only [periodPrimes, List.forall_mem_cons, ← Nat.prime_iff]
    norm_num
  have factors : 2 ^ 32 - 1 = periodPrimes.prod := by decide
  rw [factors] at divides
  exact mem_list_primes_of_dvd_prod prime.prime primes divides

theorem minimalPeriod_one : minimalPeriod xorshift32Next32 1 = 2 ^ 32 - 1 := by
  have computed : ∀ p ∈ periodPrimes, powerOfNext ((2 ^ 32 - 1) / p) 1 ≠ 1 := by decide +kernel
  refine Orbit.minimalPeriod_eq_of_div_prime isPeriodicPt_one fun p prime divides returns => ?_
  have steps : (2 ^ 32 - 1) / p < 2 ^ 32 := (Nat.div_le_self _ _).trans_lt (by decide)
  refine computed p (mem_periodPrimes prime divides) ?_
  rw [powerOfNext_eq steps (by decide)]
  exact returns

/-! ### The other seeds -/

theorem iterate_one_pos (k : Nat) : 0 < xorshift32Next32^[k] 1 := by
  by_contra zero
  have back : xorshift32Next32^[(2 ^ 32 - 1) * k] 1 = 1 := isPeriodicPt_one.mul_const k
  have steps : (2 ^ 32 - 1) * k = (2 ^ 32 - 2) * k + k := by omega
  rw [steps, iterate_add_apply, Nat.eq_zero_of_not_pos zero, iterate_zero_seed] at back
  exact absurd back (by decide)

/-- The nonzero states. -/
def states : Finset Nat := Finset.Icc 1 (2 ^ 32 - 1)

theorem mem_states {s : Nat} : s ∈ states ↔ 0 < s ∧ s < 2 ^ 32 := by
  rw [states, Finset.mem_Icc]
  omega

theorem card_states : states.card = 2 ^ 32 - 1 := by
  rw [states, Nat.card_Icc, Nat.add_sub_cancel]

theorem iterate_mem_states (k : Nat) : xorshift32Next32^[k] 1 ∈ states := by
  refine mem_states.mpr ⟨iterate_one_pos k, ?_⟩
  cases k with
  | zero => decide
  | succ k =>
    rw [iterate_succ_apply']
    exact xorshift32Next32_lt _

theorem xorshift32Next32_fullPeriod :
    (∀ s, 0 < s → s < 2 ^ 32 →
      (∀ k, xorshift32Next32^[k] s ∈ Set.Icc 1 (2 ^ 32 - 1)) ∧
      Set.BijOn (fun k => xorshift32Next32^[k] s) (Set.Iio (2 ^ 32 - 1)) (Set.Icc 1 (2 ^ 32 - 1)) ∧
      xorshift32Next32^[2 ^ 32 - 1] s = s) ∧
    ∀ k, xorshift32Next32^[k] 0 = 0 := by
  refine ⟨fun s positive below => ?_, iterate_zero_seed⟩
  have full : minimalPeriod xorshift32Next32 1 = states.card := minimalPeriod_one.trans card_states.symm
  have mem : s ∈ states := mem_states.mpr ⟨positive, below⟩
  obtain ⟨stays, visits, returns⟩ := Orbit.bijOn_iterate_of_mem iterate_mem_states full mem
  rw [card_states, states, Finset.coe_Icc] at visits
  rw [card_states] at returns
  exact ⟨fun k => Finset.mem_Icc.mp (stays k), visits, returns⟩

theorem fullPeriod_golden_seed : xorshift32Next32^[2 ^ 32 - 1] 42 = 42 :=
  (xorshift32Next32_fullPeriod.1 42 (by decide) (by decide)).2.2

end Loot
end WeftWarp
