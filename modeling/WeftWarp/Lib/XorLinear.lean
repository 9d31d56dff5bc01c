import Mathlib.Dynamics.PeriodicPts.Defs
import Mathlib.Data.Nat.Prime.Basic
import Mathlib.Data.Nat.Bitwise
import Mathlib.Data.Finset.Card

/-! # Maps that are linear for exclusive or

A map on numbers of `w` bits that is linear for exclusive or is known from the images of the powers of two. Its iterates
are linear again, so that many steps are computed by squaring. A point whose period is as long as the set it moves in
is large passes through the whole set. -/

namespace WeftWarp.XorLinear

/-- `f` keeps exclusive or. -/
def IsLinear (f : Nat → Nat) : Prop := ∀ a b, f (a ^^^ b) = f a ^^^ f b

section
variable {f g : Nat → Nat}

theorem IsLinear.map_zero (linear : IsLinear f) : f 0 = 0 := by
  have twice := linear 0 0
  rwa [Nat.xor_self, Nat.xor_self] at twice

theorem IsLinear.comp (hg : IsLinear g) (hf : IsLinear f) : IsLinear fun x => g (f x) := fun a b => by
  dsimp only
  rw [hf, hg]

theorem IsLinear.xor (hf : IsLinear f) (hg : IsLinear g) : IsLinear fun x => f x ^^^ g x := fun a b => by
  dsimp only
  rw [hf, hg, Nat.xor_assoc, Nat.xor_assoc, Nat.xor_left_comm (f b)]

theorem isLinear_id : IsLinear fun x => x := fun _ _ => rfl

theorem isLinear_shiftLeft (k : Nat) : IsLinear (· <<< k) := fun _ _ => Nat.shiftLeft_xor_distrib

theorem isLinear_shiftRight (k : Nat) : IsLinear (· >>> k) := fun _ _ => Nat.shiftRight_xor_distrib

theorem isLinear_and (mask : Nat) : IsLinear (· &&& mask) := fun _ _ => Nat.and_xor_distrib_right

theorem isLinear_double : IsLinear (2 * ·) := fun a b => by
  have shifted := isLinear_shiftLeft 1 a b
  simpa only [Nat.shiftLeft_eq, Nat.pow_one, Nat.mul_comm] using shifted

end

/-! ## Images of the powers of two -/

/-- The exclusive or of the numbers at the places of the bits of `n`. The functions are named, as the kernel computes
    them faster than the operators. -/
def combination : List Nat → Nat → Nat
  | [], _ => 0
  | c :: cs, n => Nat.xor (Nat.mul (Nat.mod n 2) c) (combination cs (Nat.div n 2))

/-- The images of the single bits. -/
def images (f : Nat → Nat) (w : Nat) : List Nat := (List.range w).map fun i => f (2 ^ i)

theorem images_succ (f : Nat → Nat) (w : Nat) : images f (w + 1) = f 1 :: images (fun n => f (2 * n)) w := by
  rw [images, List.range_succ_eq_map, List.map_cons, List.map_map, images]
  refine congrArg (f 1 :: ·) (List.map_congr_left fun i _ => ?_)
  rw [Function.comp_apply, Nat.succ_eq_add_one, Nat.pow_succ, Nat.mul_comm]

theorem bit_xor_double (n : Nat) : n % 2 ^^^ 2 * (n / 2) = n := by
  have split := Nat.mod_add_div n 2
  rcases Nat.mod_two_eq_zero_or_one n with even | odd
  · rw [even, Nat.zero_xor]
    omega
  · rw [odd, Nat.xor_comm, Nat.xor_one_of_even ⟨n / 2, Nat.two_mul _⟩]
    omega

theorem combination_images {f : Nat → Nat} (linear : IsLinear f) {w n : Nat} (within : n < 2 ^ w) :
    combination (images f w) n = f n := by
  induction w generalizing f n with
  | zero =>
    obtain rfl : n = 0 := by simpa using within
    exact linear.map_zero.symm
  | succ w ih =>
    have bit : n % 2 * f 1 = f (n % 2) := by
      rcases Nat.mod_two_eq_zero_or_one n with even | odd
      · rw [even, Nat.zero_mul, linear.map_zero]
      · rw [odd, Nat.one_mul]
    have half : n / 2 < 2 ^ w := by
      rw [Nat.pow_succ] at within
      omega
    have rest := ih (linear.comp isLinear_double) half
    rw [images_succ]
    calc n % 2 * f 1 ^^^ combination (images (fun n => f (2 * n)) w) (n / 2)
        = f (n % 2) ^^^ f (2 * (n / 2)) := by rw [bit, rest]
      _ = f n := by rw [← linear, bit_xor_double]

/-! ## Iterates -/

/-- The images under a map, its second iterate, its fourth and so on. -/
def squares (cs : List Nat) : Nat → List (List Nat)
  | 0 => []
  | k + 1 => cs :: squares (cs.map (combination cs)) k

/-- The iterate at `n`, from the iterates at the powers of two. -/
def power : List (List Nat) → Nat → Nat → Nat
  | [], _, x => x
  | cs :: rest, n, x => power rest (n / 2) (if n % 2 = 1 then combination cs x else x)

theorem images_twice {f : Nat → Nat} (linear : IsLinear f) {w : Nat} (maps : ∀ x < 2 ^ w, f x < 2 ^ w) :
    (images f w).map (combination (images f w)) = images f^[2] w := by
  rw [images, List.map_map]
  refine List.map_congr_left fun i mem => ?_
  exact combination_images linear (maps _ (Nat.pow_lt_pow_right (by decide) (List.mem_range.mp mem)))

theorem power_squares {f : Nat → Nat} (linear : IsLinear f) {w : Nat} (maps : ∀ x < 2 ^ w, f x < 2 ^ w) {k n x : Nat}
    (steps : n < 2 ^ k) (within : x < 2 ^ w) : power (squares (images f w) k) n x = f^[n] x := by
  induction k generalizing f n x with
  | zero =>
    obtain rfl : n = 0 := by simpa using steps
    rfl
  | succ k ih =>
    have twice : IsLinear f^[2] := linear.comp linear
    have mapsTwice : ∀ x < 2 ^ w, f^[2] x < 2 ^ w := fun x within => maps _ (maps x within)
    have half : n / 2 < 2 ^ k := by
      rw [Nat.pow_succ] at steps
      omega
    have first : (if n % 2 = 1 then combination (images f w) x else x) = f^[n % 2] x := by
      rcases Nat.mod_two_eq_zero_or_one n with even | odd
      · rw [even]
        rfl
      · rw [odd, if_pos rfl, combination_images linear within]
        rfl
    have inside : f^[n % 2] x < 2 ^ w := by
      rcases Nat.mod_two_eq_zero_or_one n with even | odd
      · rw [even]
        exact within
      · rw [odd]
        exact maps x within
    rw [squares, power, images_twice linear maps, first, ih twice mapsTwice half inside, ← Function.iterate_mul,
      ← Function.iterate_add_apply, Nat.add_comm, Nat.mod_add_div]

end WeftWarp.XorLinear

/-! ## Cycles -/

namespace WeftWarp.Orbit
open Function Set

variable {α : Type*} {f : α → α} {x y : α} {n : ℕ}

/-- A period is the shortest one if it is none after division by a prime. -/
theorem minimalPeriod_eq_of_div_prime (periodic : IsPeriodicPt f n x)
    (shortest : ∀ p, p.Prime → p ∣ n → ¬IsPeriodicPt f (n / p) x) : minimalPeriod f x = n := by
  obtain ⟨e, same⟩ := periodic.minimalPeriod_dvd
  by_contra shorter
  have more : e ≠ 1 := by
    rintro rfl
    exact shorter (same.trans (Nat.mul_one _)).symm
  obtain ⟨p, prime, q, rfl⟩ := Nat.exists_prime_and_dvd more
  have factor : n = p * (minimalPeriod f x * q) := by rw [same, Nat.mul_left_comm]
  refine shortest p prime ⟨_, factor⟩ ?_
  have quotient : n / p = minimalPeriod f x * q := Nat.div_eq_of_eq_mul_right prime.pos factor
  rw [quotient]
  exact (isPeriodicPt_minimalPeriod f x).mul_const q

section
variable {s : Finset α} (stays : ∀ k, f^[k] x ∈ s) (full : minimalPeriod f x = s.card)
include stays full

/-- A point with a period as long as the set is large passes through the whole set. -/
theorem bijOn_iterate_of_card : BijOn (fun k => f^[k] x) (Iio s.card) s := by
  have injective : InjOn (fun k => f^[k] x) (Finset.range s.card) := by
    rw [Finset.coe_range, ← full]
    exact iterate_injOn_Iio_minimalPeriod
  have maps : MapsTo (fun k => f^[k] x) (Finset.range s.card) s := fun k _ => stays k
  have surjective := Finset.surjOn_of_injOn_of_card_le _ maps injective (by rw [Finset.card_range])
  rw [← Finset.coe_range]
  exact ⟨maps, injective, surjective⟩

theorem bijOn_iterate_of_mem (mem : y ∈ s) :
    (∀ k, f^[k] y ∈ s) ∧ BijOn (fun k => f^[k] y) (Iio s.card) s ∧ f^[s.card] y = y := by
  obtain ⟨m, -, rfl⟩ := (bijOn_iterate_of_card stays full).surjOn mem
  have periodic : x ∈ periodicPts f := by
    apply minimalPeriod_pos_iff_mem_periodicPts.mp
    rw [full]
    exact Finset.card_pos.mpr ⟨_, mem⟩
  have period : minimalPeriod f (f^[m] x) = s.card := (minimalPeriod_apply_iterate periodic m).trans full
  have inside : ∀ k, f^[k] (f^[m] x) ∈ s := by
    intro k
    rw [← iterate_add_apply]
    exact stays _
  refine ⟨inside, bijOn_iterate_of_card inside period, ?_⟩
  rw [← period]
  exact isPeriodicPt_minimalPeriod f _

end

end WeftWarp.Orbit
