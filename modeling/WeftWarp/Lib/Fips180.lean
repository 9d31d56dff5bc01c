import Mathlib.Data.List.Induction
import Mathlib.Data.Nat.Find
import Mathlib.Tactic.Ring

/-! SHA-256 on bit strings, as FIPS 180-4 defines it. The constants are taken from the primes, as the standard
    explains them, and the padding from the least number of zeros that fills a block. -/

namespace WeftWarp.Fips180

/-! ### Bit strings -/

/-- The number on `w` bits, the most significant first. -/
def binary (w n : Nat) : List Bool := (List.range w).map fun i => n.testBit (w - 1 - i)

/-- The number that a bit string stands for. -/
def ofBinary (bits : List Bool) : Nat := bits.foldl (fun n b => 2 * n + b.toNat) 0

@[simp] theorem length_binary (w n : Nat) : (binary w n).length = w := by
  rw [binary, List.length_map, List.length_range]

/-- The upper bits and the lower bits. -/
theorem binary_add (u v n : Nat) : binary (u + v) n = binary u (n / 2 ^ v) ++ binary v n := by
  rw [binary, List.range_add, List.map_append, List.map_map]
  congr 1
  · refine List.map_congr_left fun i hi => ?_
    have inside := List.mem_range.mp hi
    rw [Nat.testBit_div_two_pow]
    congr 1
    omega
  · refine List.map_congr_left fun i hi => ?_
    have inside := List.mem_range.mp hi
    rw [Function.comp_apply]
    congr 1
    omega

theorem binary_mod (w n : Nat) : binary w (n % 2 ^ w) = binary w n := by
  refine List.map_congr_left fun i hi => ?_
  have inside := List.mem_range.mp hi
  rw [Nat.testBit_mod_two_pow, decide_eq_true (by omega), Bool.true_and]

theorem ofBinary_append (left right : List Bool) :
    ofBinary (left ++ right) = ofBinary left * 2 ^ right.length + ofBinary right := by
  have go (n : Nat) (bits : List Bool) :
      bits.foldl (fun n b => 2 * n + b.toNat) n = n * 2 ^ bits.length + ofBinary bits := by
    induction bits using List.reverseRecOn with
    | nil => simp [ofBinary]
    | append_singleton bits b ih =>
      simp only [ofBinary, List.foldl_append, List.foldl_cons, List.foldl_nil, List.length_append,
        List.length_singleton, Nat.pow_succ] at ih ⊢
      rw [ih]
      ring
  rw [ofBinary, List.foldl_append, go, ← ofBinary]

theorem ofBinary_binary (w n : Nat) : ofBinary (binary w n) = n % 2 ^ w := by
  induction w with
  | zero => simp [binary, ofBinary, Nat.mod_one]
  | succ w ih =>
    have top : ofBinary (binary 1 (n / 2 ^ w)) = n / 2 ^ w % 2 := by
      rcases Nat.mod_two_eq_zero_or_one (n / 2 ^ w) with bit | bit <;> simp [binary, ofBinary, bit]
    rw [Nat.add_comm, binary_add, ofBinary_append, ih, top, length_binary, Nat.add_comm 1 w, Nat.mod_pow_succ]
    ring

/-! ### Functions -/

/-- A word of 32 bits. -/
abbrev Word := BitVec 32

/-- The choice `Ch`. -/
def ch (x y z : Word) : Word := (x &&& y) ^^^ (~~~x &&& z)

/-- The majority `Maj`. -/
def maj (x y z : Word) : Word := (x &&& y) ^^^ (x &&& z) ^^^ (y &&& z)

/-- The function `Σ0`. -/
def bigSigma0 (x : Word) : Word := x.rotateRight 2 ^^^ x.rotateRight 13 ^^^ x.rotateRight 22

/-- The function `Σ1`. -/
def bigSigma1 (x : Word) : Word := x.rotateRight 6 ^^^ x.rotateRight 11 ^^^ x.rotateRight 25

/-- The function `σ0`. -/
def smallSigma0 (x : Word) : Word := x.rotateRight 7 ^^^ x.rotateRight 18 ^^^ x >>> 3

/-- The function `σ1`. -/
def smallSigma1 (x : Word) : Word := x.rotateRight 17 ^^^ x.rotateRight 19 ^^^ x >>> 10

/-! ### Constants -/

/-- No divisor but 1 and itself. -/
def isPrime (p : Nat) : Bool := Nat.ble 2 p && (List.range p).all fun d => Nat.blt d 2 || !Nat.beq (Nat.mod p d) 0

/-- The first sixty-four primes. -/
def primes : List Nat := (List.range 312).filter isPrime

theorem primes_eq : primes =
    [2, 3, 5, 7, 11, 13, 17, 19, 23, 29, 31, 37, 41, 43, 47, 53, 59, 61, 67, 71, 73, 79, 83, 89, 97, 101, 103, 107, 109,
     113, 127, 131, 137, 139, 149, 151, 157, 163, 167, 173, 179, 181, 191, 193, 197, 199, 211, 223, 227, 229, 233, 239,
     241, 251, 257, 263, 269, 271, 277, 281, 283, 293, 307, 311] := by
  decide +kernel

/-- The integral part of the `e`-th root. -/
def root (e n : Nat) : Nat := Nat.findGreatest (fun r => r ^ e ≤ n) n

/-- The first thirty-two bits of the fractional part of the `e`-th root of `p`. -/
def fractionalRoot (e p : Nat) : Word := BitVec.ofNat 32 (root e (p * 2 ^ (32 * e)))

/-- The constants of the rounds come from the cube roots of the primes. -/
def constant (t : Nat) : Word := fractionalRoot 3 (primes.getD t 0)

theorem root_eq {e n r : Nat} (positive : e ≠ 0) (low : r ^ e ≤ n) (high : n < (r + 1) ^ e) : root e n = r := by
  refine (Nat.findGreatest_eq_iff).mpr ⟨(Nat.le_self_pow positive r).trans low, fun _ => low, fun s more _ small => ?_⟩
  exact absurd (high.trans_le (Nat.pow_le_pow_left more e)) (not_lt.mpr small)

/-- The word follows the point in the root, whose integral part is below twenty. -/
def follows (e p : Nat) (k : Word) : Bool :=
  (List.range 20).any fun i =>
    Nat.pow (i * 2 ^ 32 + k.toNat) e ≤ p * 2 ^ (32 * e) && p * 2 ^ (32 * e) < Nat.pow (i * 2 ^ 32 + k.toNat + 1) e

theorem fractionalRoot_eq {e p : Nat} {k : Word} (positive : e ≠ 0) (h : follows e p k = true) : fractionalRoot e p = k := by
  obtain ⟨i, -, bounds⟩ := List.any_eq_true.mp h
  simp only [Bool.and_eq_true, decide_eq_true_eq] at bounds
  rw [fractionalRoot, root_eq positive bounds.1 bounds.2]
  refine BitVec.eq_of_toNat_eq ?_
  rw [BitVec.toNat_ofNat, Nat.mul_comm i, Nat.mul_add_mod, Nat.mod_eq_of_lt k.isLt]

/-! ### Padding -/

theorem exists_zeros (l : Nat) : ∃ k, (l + 1 + k) % 512 = 448 := ⟨(959 - l % 512) % 512, by omega⟩

/-- The least number of zeros with which 64 bits are missing to a full block. -/
def zeros (l : Nat) : Nat := Nat.find (exists_zeros l)

/-- The message, a one, zeros and the length. -/
def pad (message : List Bool) : List Bool :=
  message ++ true :: List.replicate (zeros message.length) false ++ binary 64 message.length

theorem zeros_eq {l k : Nat} (fills : (l + 1 + k) % 512 = 448) (small : k < 512) : zeros l = k := by
  refine (Nat.find_eq_iff _).mpr ⟨fills, fun j less fills' => ?_⟩
  omega

/-! ### Computation -/

/-- The word `t` of the block `i`. -/
def messageWord (padded : List Bool) (i t : Nat) : Word :=
  BitVec.ofNat 32 (ofBinary ((padded.drop (512 * i + 32 * t)).take 32))

/-- The message schedule of a block. -/
def schedule (block : Nat → Word) (t : Nat) : Word :=
  if t < 16 then block t
  else smallSigma1 (schedule block (t - 2)) + schedule block (t - 7) + smallSigma0 (schedule block (t - 15)) +
    schedule block (t - 16)

/-- Eight words: the hash value, or the working variables. -/
structure Variables where
  a : Word
  b : Word
  c : Word
  d : Word
  e : Word
  f : Word
  g : Word
  h : Word

/-- The initial hash value comes from the square roots of the primes. -/
def initial : Variables :=
  let root (j : Nat) := fractionalRoot 2 (primes.getD j 0)
  ⟨root 0, root 1, root 2, root 3, root 4, root 5, root 6, root 7⟩

/-- One round of the compression. -/
def roundStep (schedule : Nat → Word) (v : Variables) (t : Nat) : Variables :=
  let t1 := v.h + bigSigma1 v.e + ch v.e v.f v.g + constant t + schedule t
  let t2 := bigSigma0 v.a + maj v.a v.b v.c
  { a := t1 + t2, b := v.a, c := v.b, d := v.c, e := v.d + t1, f := v.e, g := v.f, h := v.g }

/-- The next hash value. -/
def compress (hash : Variables) (block : Nat → Word) : Variables :=
  let v := (List.range 64).foldl (roundStep (schedule block)) hash
  { a := v.a + hash.a, b := v.b + hash.b, c := v.c + hash.c, d := v.d + hash.d,
    e := v.e + hash.e, f := v.f + hash.f, g := v.g + hash.g, h := v.h + hash.h }

/-- The variables in their order. -/
def Variables.words (v : Variables) : List Word := [v.a, v.b, v.c, v.d, v.e, v.f, v.g, v.h]

/-- The hash of a message of bits. -/
def sha256 (message : List Bool) : List Bool :=
  let padded := pad message
  let hash := (List.range (padded.length / 512)).foldl (fun hash i => compress hash (messageWord padded i)) initial
  hash.words.flatMap fun w => binary 32 w.toNat

end WeftWarp.Fips180
