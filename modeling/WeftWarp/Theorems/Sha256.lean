import WeftWarp.Hrr
import WeftWarp.Lib.Fips180
import Mathlib.Data.List.GetD

/-! # The hash is SHA-256

`_sha256::hash` works on bytes and machine words, the standard on a string of bits. Bit for bit they do the same, as
long as the length in bits fits into sixty-four bits. -/

namespace WeftWarp.TwHRR.Sha256

open Fips180 (binary ofBinary binary_add binary_mod length_binary)

/-! ### Bytes as bits -/

/-- The bits of a byte. -/
def byteBits (b : UInt8) : List Bool := binary 8 b.toNat

/-- A string of bytes as the string of their bits, each from its most significant bit on. -/
def bits (bytes : List UInt8) : List Bool := bytes.flatMap byteBits

@[simp] theorem length_byteBits (b : UInt8) : (byteBits b).length = 8 := length_binary 8 _

theorem bits_cons (b : UInt8) (bytes : List UInt8) : bits (b :: bytes) = byteBits b ++ bits bytes := List.flatMap_cons

theorem bits_append (left right : List UInt8) : bits (left ++ right) = bits left ++ bits right := List.flatMap_append

@[simp] theorem length_bits (bytes : List UInt8) : (bits bytes).length = 8 * bytes.length := by
  induction bytes with
  | nil => rfl
  | cons b bytes ih =>
    rw [bits_cons, List.length_append, length_byteBits, ih, List.length_cons]
    omega

theorem drop_bits (n : Nat) (bytes : List UInt8) : (bits bytes).drop (8 * n) = bits (bytes.drop n) := by
  induction n generalizing bytes with
  | zero => rfl
  | succ n ih =>
    cases bytes with
    | nil => simp [bits]
    | cons b bytes =>
      rw [bits_cons, List.drop_succ_cons, ← ih, Nat.mul_succ, Nat.add_comm, ← List.drop_drop]
      rw [List.drop_left' (length_byteBits b)]

theorem take_bits (n : Nat) (bytes : List UInt8) : (bits bytes).take (8 * n) = bits (bytes.take n) := by
  induction n generalizing bytes with
  | zero => rfl
  | succ n ih =>
    cases bytes with
    | nil => simp [bits]
    | cons b bytes =>
      rw [bits_cons, List.take_succ_cons, bits_cons, ← ih, Nat.mul_succ, Nat.add_comm]
      rw [List.take_append, length_byteBits, List.take_of_length_le (by simp), Nat.add_sub_cancel_left]

theorem bits_replicate_zero (n : Nat) : bits (List.replicate n 0) = List.replicate (8 * n) false := by
  induction n with
  | zero => rfl
  | succ n ih =>
    have zero : byteBits 0 = List.replicate 8 false := by decide
    rw [List.replicate_succ, bits_cons, ih, zero, List.replicate_append_replicate]
    congr 1
    omega

/-- The bytes of a number, from the most significant on, are its bits. -/
theorem bits_bytes (m n : Nat) :
    bits ((List.range m).map fun i => UInt8.ofNat (n / 256 ^ (m - 1 - i))) = binary (8 * m) n := by
  induction m generalizing n with
  | zero => rfl
  | succ m ih =>
    have upper : ((List.range m).map fun i => UInt8.ofNat (n / 256 ^ (m + 1 - 1 - i))) =
        (List.range m).map fun i => UInt8.ofNat (n / 256 / 256 ^ (m - 1 - i)) := by
      refine List.map_congr_left fun i hi => ?_
      have inside := List.mem_range.mp hi
      rw [Nat.div_div_eq_div_mul, ← Nat.pow_succ', show (m - 1 - i).succ = m + 1 - 1 - i by omega]
    have last : byteBits (UInt8.ofNat (n / 256 ^ (m + 1 - 1 - m))) = binary 8 n := by
      rw [byteBits, UInt8.toNat_ofNat', binary_mod]
      simp
    rw [List.range_succ, List.map_append, bits_append, upper, ih, List.map_singleton, bits_cons, last, Nat.mul_succ,
      binary_add]
    simp [bits]

/-! ### The padded buffer -/

/-- The zero bytes between the marker and the length. -/
def zeroBytes (len : Nat) : Nat := paddedSize len - len - 9

/-- The length in bits, as eight bytes. -/
def lengthBytes (len : Nat) : List UInt8 := (List.range 8).map fun i => UInt8.ofNat (8 * len / 256 ^ (7 - i))

theorem bits_lengthBytes (len : Nat) : bits (lengthBytes len) = binary 64 (8 * len) := bits_bytes 8 (8 * len)

theorem paddedSize_eq (len : Nat) : paddedSize len = len + 1 + zeroBytes len + 8 := by
  unfold zeroBytes paddedSize
  omega

/-- It is the least number of zeros with which eight bytes are missing to a full block. -/
theorem zeroBytes_least (len : Nat) :
    (len + 1 + zeroBytes len) % 64 = 56 ∧ ∀ k < zeroBytes len, (len + 1 + k) % 64 ≠ 56 := by
  unfold zeroBytes paddedSize
  exact ⟨by omega, fun k less => by omega⟩

theorem foldl_set {α : Type} (v : Nat → α) (before : List α) : ∀ (n : Nat) (after : List α), n ≤ after.length →
    (List.range n).foldl (fun l i => l.set (before.length + i) (v i)) (before ++ after) =
      before ++ (List.range n).map v ++ after.drop n
  | 0, after, _ => by simp
  | n + 1, after, le => by
    rw [List.range_succ, List.foldl_append, foldl_set v before n after (by omega), List.foldl_cons, List.foldl_nil,
      List.map_append, List.map_singleton]
    have position : before.length + n = (before ++ (List.range n).map v).length := by simp
    have next := List.drop_eq_getElem_cons (show n < after.length by omega)
    rw [position, next, List.set_append_right _ _ (Nat.le_refl _), Nat.sub_self, List.set_cons_zero]
    simp

variable {data msg : List UInt8} {n i t : Nat}

theorem paddedMessage_eq (short : data.length < 2 ^ 61) : paddedMessage data =
    data ++ 0x80 :: List.replicate (zeroBytes data.length) 0 ++ lengthBytes data.length := by
  have size := paddedSize_eq data.length
  have zeros : (List.replicate (paddedSize data.length) (0 : UInt8)).drop data.length =
      0 :: (List.replicate (zeroBytes data.length) 0 ++ List.replicate 8 0) := by
    rw [List.drop_replicate, List.replicate_append_replicate, ← List.replicate_succ]
    congr 1
    omega
  have marked : (data ++ 0 :: (List.replicate (zeroBytes data.length) 0 ++ List.replicate 8 (0 : UInt8))).set
      data.length 0x80 = data ++ 0x80 :: List.replicate (zeroBytes data.length) 0 ++ List.replicate 8 0 := by
    rw [List.set_append_right _ _ (Nat.le_refl _), Nat.sub_self, List.set_cons_zero, List.append_assoc, List.cons_append]
  have position : paddedSize data.length - 8 =
      (data ++ (0x80 : UInt8) :: List.replicate (zeroBytes data.length) 0).length := by
    simp only [List.length_append, List.length_cons, List.length_replicate]
    omega
  simp only [paddedMessage, zeros, marked, position]
  rw [foldl_set _ _ 8 (List.replicate 8 0) (by simp)]
  simp only [List.drop_replicate, Nat.sub_self, List.replicate_zero, List.append_nil, lengthBytes]
  congr 1
  refine List.map_congr_left fun i hi => ?_
  have inside := List.mem_range.mp hi
  have bitLen : (UInt64.ofNat data.length * 8).toNat = 8 * data.length := by
    rw [UInt64.toNat_mul, UInt64.toNat_ofNat', show UInt64.toNat 8 = 8 from rfl]
    omega
  have shift : (UInt64.ofNat (56 - 8 * i)).toNat % 64 = 8 * (7 - i) := by
    rw [UInt64.toNat_ofNat', Nat.mod_eq_of_lt (by omega)]
    omega
  refine UInt8.toNat_inj.mp ?_
  rw [UInt64.toNat_toUInt8, UInt64.toNat_shiftRight, bitLen, shift, UInt8.toNat_ofNat', Nat.shiftRight_eq_div_pow,
    Nat.pow_mul]

/-- The buffer holds the padded message of the standard. -/
theorem bits_paddedMessage (short : data.length < 2 ^ 61) : bits (paddedMessage data) = Fips180.pad (bits data) := by
  have zeros : Fips180.zeros (bits data).length = 7 + 8 * zeroBytes data.length := by
    have fills := (zeroBytes_least data.length).1
    refine Fips180.zeros_eq ?_ ?_
    · rw [length_bits]
      omega
    · unfold zeroBytes paddedSize
      omega
  have marker : byteBits 0x80 = true :: List.replicate 7 false := by decide
  rw [paddedMessage_eq short, bits_append, bits_append, bits_cons, bits_replicate_zero, marker, bits_lengthBytes,
    Fips180.pad, zeros, length_bits, List.cons_append, List.replicate_append_replicate]

/-! ### Words -/

theorem toNat_shifted (b : UInt8) (room : n ≤ 24) : (b.toUInt32 <<< UInt32.ofNat n).toNat = 2 ^ n * b.toNat := by
  have byte := b.toNat_lt
  have power : 2 ^ n ≤ 2 ^ 24 := Nat.pow_le_pow_right (by decide) room
  rw [UInt32.toNat_shiftLeft, UInt8.toNat_toUInt32, UInt32.toNat_ofNat', Nat.mod_eq_of_lt (show n < 2 ^ 32 by omega),
    Nat.mod_eq_of_lt (show n < 32 by omega), Nat.shiftLeft_eq, Nat.mul_comm]
  refine Nat.mod_eq_of_lt ?_
  calc 2 ^ n * b.toNat ≤ 2 ^ 24 * 255 := Nat.mul_le_mul power (by omega)
    _ < 2 ^ 32 := by decide

theorem loadWord_toNat (msg : List UInt8) (p : Nat) : (loadWord msg p).toNat =
    2 ^ 24 * (msg.getD p 0).toNat + 2 ^ 16 * (msg.getD (p + 1) 0).toNat + 2 ^ 8 * (msg.getD (p + 2) 0).toNat +
      (msg.getD (p + 3) 0).toNat := by
  have second := (msg.getD (p + 1) 0).toNat_lt
  have third := (msg.getD (p + 2) 0).toNat_lt
  have fourth := (msg.getD (p + 3) 0).toNat_lt
  -- The bytes do not overlap, so each `|` adds.
  have join24 := Nat.two_pow_add_eq_or_of_lt (show 2 ^ 16 * (msg.getD (p + 1) 0).toNat < 2 ^ 24 by omega)
    (msg.getD p 0).toNat
  have join16 := Nat.two_pow_add_eq_or_of_lt (show 2 ^ 8 * (msg.getD (p + 2) 0).toNat < 2 ^ 16 by omega)
    (2 ^ 8 * (msg.getD p 0).toNat + (msg.getD (p + 1) 0).toNat)
  have join8 := Nat.two_pow_add_eq_or_of_lt (show (msg.getD (p + 3) 0).toNat < 2 ^ 8 by omega)
    (2 ^ 16 * (msg.getD p 0).toNat + 2 ^ 8 * (msg.getD (p + 1) 0).toNat + (msg.getD (p + 2) 0).toNat)
  simp only [Nat.mul_add, ← Nat.mul_assoc, ← Nat.pow_add] at join16 join8
  have shift24 := toNat_shifted (msg.getD p 0) (show 24 ≤ 24 by decide)
  have shift16 := toNat_shifted (msg.getD (p + 1) 0) (show 16 ≤ 24 by decide)
  have shift8 := toNat_shifted (msg.getD (p + 2) 0) (show 8 ≤ 24 by decide)
  rw [loadWord, UInt32.toNat_or, UInt32.toNat_or, UInt32.toNat_or, UInt8.toNat_toUInt32,
    show (24 : UInt32) = UInt32.ofNat 24 from rfl, shift24, show (16 : UInt32) = UInt32.ofNat 16 from rfl, shift16,
    show (8 : UInt32) = UInt32.ofNat 8 from rfl, shift8, ← join24, ← join16, ← join8]

theorem ofBinary_byteBits (b : UInt8) : ofBinary (byteBits b) = b.toNat := by
  rw [byteBits, Fips180.ofBinary_binary, Nat.mod_eq_of_lt b.toNat_lt]

theorem ofBinary_bits_cons (b : UInt8) (bytes : List UInt8) :
    ofBinary (bits (b :: bytes)) = b.toNat * 2 ^ (8 * bytes.length) + ofBinary (bits bytes) := by
  rw [bits_cons, Fips180.ofBinary_append, ofBinary_byteBits, length_bits]

theorem take_four {p : Nat} (inside : p + 4 ≤ msg.length) :
    (msg.drop p).take 4 = [msg.getD p 0, msg.getD (p + 1) 0, msg.getD (p + 2) 0, msg.getD (p + 3) 0] := by
  have cut (q : Nat) (more : q < msg.length) : msg.drop q = msg.getD q 0 :: msg.drop (q + 1) := by
    rw [List.drop_eq_getElem_cons more, List.getD_eq_getElem _ _ more]
  rw [cut p (by omega), cut (p + 1) (by omega), cut (p + 1 + 1) (by omega), cut (p + 1 + 1 + 1) (by omega)]
  rfl

theorem toBitVec_loadWord (inside : 64 * i + 4 * t + 4 ≤ msg.length) :
    (loadWord msg (64 * i + 4 * t)).toBitVec = Fips180.messageWord (bits msg) i t := by
  have position : 512 * i + 32 * t = 8 * (64 * i + 4 * t) := by omega
  have word : ((bits msg).drop (512 * i + 32 * t)).take 32 = bits ((msg.drop (64 * i + 4 * t)).take 4) := by
    rw [position, drop_bits]
    exact take_bits 4 _
  refine BitVec.eq_of_toNat_eq ?_
  rw [Fips180.messageWord, word, take_four inside, BitVec.toNat_ofNat, UInt32.toNat_toBitVec]
  refine (Nat.mod_eq_of_lt ?_).symm.trans (congrArg (· % 2 ^ 32) ?_)
  · exact (loadWord msg (64 * i + 4 * t)).toNat_lt
  · have none : ofBinary (bits []) = 0 := rfl
    simp only [ofBinary_bits_cons, none, loadWord_toNat, List.length_cons, List.length_nil]
    omega

theorem bits_storeWord (x : UInt32) : bits (storeWord x) = binary 32 x.toBitVec.toNat := by
  have byte (n : Nat) (small : n < 4) : (x >>> UInt32.ofNat (8 * n)).toUInt8 = UInt8.ofNat (x.toNat / 256 ^ n) := by
    refine UInt8.toNat_inj.mp ?_
    rw [UInt32.toNat_toUInt8, UInt32.toNat_shiftRight, UInt32.toNat_ofNat', UInt8.toNat_ofNat',
      Nat.mod_eq_of_lt (show 8 * n < 2 ^ 32 by omega), Nat.mod_eq_of_lt (show 8 * n < 32 by omega),
      Nat.shiftRight_eq_div_pow, Nat.pow_mul]
  have last : x.toUInt8 = (x >>> UInt32.ofNat (8 * 0)).toUInt8 := by simp
  have bytes : storeWord x = (List.range 4).map fun i => UInt8.ofNat (x.toNat / 256 ^ (4 - 1 - i)) := by
    rw [storeWord, last]
    exact congrArg₂ _ (byte 3 (by decide)) (congrArg₂ _ (byte 2 (by decide)) (congrArg₂ _ (byte 1 (by decide))
      (congrArg₂ _ (byte 0 (by decide)) rfl)))
  rw [bytes, bits_bytes 4]
  rfl

/-! ### Functions -/

theorem toBitVec_rotr (x : UInt32) (positive : 0 < n) (small : n < 32) :
    (rotr x (UInt32.ofNat n)).toBitVec = x.toBitVec.rotateRight n := by
  have right : (UInt32.ofNat n).toNat = n := by
    rw [UInt32.toNat_ofNat', Nat.mod_eq_of_lt (by omega)]
  have left : (32 - UInt32.ofNat n).toNat = 32 - n := by
    have fits : UInt32.ofNat n ≤ 32 := UInt32.le_iff_toNat_le.mpr (right.trans_le small.le)
    rw [UInt32.toNat_sub_of_le _ _ fits, right]
    rfl
  refine BitVec.eq_of_toNat_eq ?_
  rw [BitVec.toNat_rotateRight, rotr, UInt32.toNat_toBitVec, UInt32.toNat_or, UInt32.toNat_shiftRight, UInt32.toNat_shiftLeft,
    right, left, UInt32.toNat_toBitVec, Nat.mod_eq_of_lt small, Nat.mod_eq_of_lt (show 32 - n < 32 by omega)]

theorem toBitVec_rotations (x : UInt32) {l m : Nat} (hl : 0 < l ∧ l < 32) (hm : 0 < m ∧ m < 32) (hn : 0 < n ∧ n < 32) :
    (rotr x (UInt32.ofNat l) ^^^ rotr x (UInt32.ofNat m) ^^^ rotr x (UInt32.ofNat n)).toBitVec =
      x.toBitVec.rotateRight l ^^^ x.toBitVec.rotateRight m ^^^ x.toBitVec.rotateRight n := by
  rw [UInt32.toBitVec_xor, UInt32.toBitVec_xor, toBitVec_rotr x hl.1 hl.2, toBitVec_rotr x hm.1 hm.2,
    toBitVec_rotr x hn.1 hn.2]

theorem toBitVec_shifts (x : UInt32) {l m : Nat} (hl : 0 < l ∧ l < 32) (hm : 0 < m ∧ m < 32) (hn : n < 32) :
    (rotr x (UInt32.ofNat l) ^^^ rotr x (UInt32.ofNat m) ^^^ (x >>> UInt32.ofNat n)).toBitVec =
      x.toBitVec.rotateRight l ^^^ x.toBitVec.rotateRight m ^^^ x.toBitVec >>> n := by
  have shift : (x >>> UInt32.ofNat n).toBitVec = x.toBitVec >>> n := by
    refine BitVec.eq_of_toNat_eq ?_
    rw [UInt32.toNat_toBitVec, UInt32.toNat_shiftRight, UInt32.toNat_ofNat', BitVec.toNat_ushiftRight,
      Nat.mod_eq_of_lt (show n < 2 ^ 32 by omega), Nat.mod_eq_of_lt hn, UInt32.toNat_toBitVec]
  rw [UInt32.toBitVec_xor, UInt32.toBitVec_xor, toBitVec_rotr x hl.1 hl.2, toBitVec_rotr x hm.1 hm.2, shift]

theorem toBitVec_ch (e f g : UInt32) : (ch e f g).toBitVec = Fips180.ch e.toBitVec f.toBitVec g.toBitVec := rfl

theorem toBitVec_maj (a b c : UInt32) : (maj a b c).toBitVec = Fips180.maj a.toBitVec b.toBitVec c.toBitVec := rfl

theorem toBitVec_s0 (x : UInt32) : (s0 x).toBitVec = Fips180.bigSigma0 x.toBitVec :=
  toBitVec_rotations x (by decide) (by decide) (by decide)

theorem toBitVec_s1 (x : UInt32) : (s1 x).toBitVec = Fips180.bigSigma1 x.toBitVec :=
  toBitVec_rotations x (by decide) (by decide) (by decide)

theorem toBitVec_g0 (x : UInt32) : (g0 x).toBitVec = Fips180.smallSigma0 x.toBitVec :=
  toBitVec_shifts x (by decide) (by decide) (by decide)

theorem toBitVec_g1 (x : UInt32) : (g1 x).toBitVec = Fips180.smallSigma1 x.toBitVec :=
  toBitVec_shifts x (by decide) (by decide) (by decide)

/-! ### Constants -/

theorem toBitVec_K (inside : t < 64) : (K.getD t 0).toBitVec = Fips180.constant t := by
  have all : ∀ t < 64, Fips180.follows 3 (Fips180.primes.getD t 0) (K.getD t 0).toBitVec = true := by
    rw [Fips180.primes_eq]
    decide +kernel
  exact (Fips180.fractionalRoot_eq (by decide) (all t inside)).symm

/-- The words of the registers. -/
def Registers.variables (r : Registers) : Fips180.Variables :=
  ⟨r.a.toBitVec, r.b.toBitVec, r.c.toBitVec, r.d.toBitVec, r.e.toBitVec, r.f.toBitVec, r.g.toBitVec, r.hh.toBitVec⟩

theorem start_variables : start.variables = Fips180.initial := by
  have all : ∀ j < 8, Fips180.follows 2 (Fips180.primes.getD j 0) (start.variables.words.getD j 0) = true := by
    rw [Fips180.primes_eq]
    decide +kernel
  have root (j : Nat) (small : j < 8) := Fips180.fractionalRoot_eq (by decide) (all j small)
  simp only [Fips180.initial, root 0 (by decide), root 1 (by decide), root 2 (by decide), root 3 (by decide),
    root 4 (by decide), root 5 (by decide), root 6 (by decide), root 7 (by decide)]
  rfl

/-! ### Rounds -/

theorem rotate_variables {w : List UInt32} {schedule : Nat → Fips180.Word} (inside : i < 64)
    (word : (w.getD i 0).toBitVec = schedule i) (r : Registers) :
    (rotate w r i).variables = Fips180.roundStep schedule r.variables i := by
  simp only [rotate, Registers.variables, Fips180.roundStep, UInt32.toBitVec_add, toBitVec_s1, toBitVec_ch, toBitVec_s0,
    toBitVec_maj, toBitVec_K inside, word]

/-- The rounds of a block. -/
theorem rounds_variables {w : List UInt32} {schedule : Nat → Fips180.Word}
    (scheduled : ∀ i < 64, (w.getD i 0).toBitVec = schedule i) (r : Registers) (n : Nat) (le : n ≤ 64) :
    ((List.range n).foldl (rotate w) r).variables = (List.range n).foldl (Fips180.roundStep schedule) r.variables := by
  induction n with
  | zero => rfl
  | succ n ih =>
    rw [List.range_succ, List.foldl_append, List.foldl_append, List.foldl_cons, List.foldl_nil, List.foldl_cons,
      List.foldl_nil, rotate_variables (by omega) (scheduled n (by omega)), ih (by omega)]

/-! ### The schedule -/

/-- A word of the schedule, in a register. -/
def scheduled (block : Nat → Fips180.Word) (t : Nat) : UInt32 := UInt32.ofBitVec (Fips180.schedule block t)

theorem scheduled_first {block : Nat → Fips180.Word} (early : t < 16) : (scheduled block t).toBitVec = block t := by
  rw [scheduled, Fips180.schedule, if_pos early]

theorem scheduled_later {block : Nat → Fips180.Word} (late : 16 ≤ t) : scheduled block t =
    g1 (scheduled block (t - 2)) + scheduled block (t - 7) + g0 (scheduled block (t - 15)) + scheduled block (t - 16) := by
  refine UInt32.toBitVec_inj.mp ?_
  simp only [UInt32.toBitVec_add, toBitVec_g1, toBitVec_g0]
  rw [scheduled, Fips180.schedule, if_neg (by omega)]
  rfl

theorem getD_map_range (f : Nat → UInt32) (inside : i < n) : ((List.range n).map f).getD i 0 = f i := by
  rw [List.getD_eq_getElem _ _ (by simpa using inside), List.getElem_map, List.getElem_range]

/-- The loop over `w` extends the schedule by one entry after the other. -/
theorem words_loop (block : Nat → Fips180.Word) (n : Nat) : (List.range' 16 n).foldl
    (fun w i => w ++ [g1 (w.getD (i - 2) 0) + w.getD (i - 7) 0 + g0 (w.getD (i - 15) 0) + w.getD (i - 16) 0])
    ((List.range 16).map (scheduled block)) = (List.range (16 + n)).map (scheduled block) := by
  induction n with
  | zero => rfl
  | succ n ih =>
    rw [List.range'_1_concat, List.foldl_append, ih, List.foldl_cons, List.foldl_nil, ← Nat.add_assoc, List.range_succ,
      List.map_append, List.map_singleton, getD_map_range _ (by omega), getD_map_range _ (by omega),
      getD_map_range _ (by omega), getD_map_range _ (by omega), ← scheduled_later (by omega)]

theorem words_eq (inside : 64 * i + 64 ≤ msg.length) :
    words msg (64 * i) = (List.range 64).map (scheduled (Fips180.messageWord (bits msg) i)) := by
  have first : ((List.range 16).map fun t => loadWord msg (64 * i + 4 * t)) =
      (List.range 16).map (scheduled (Fips180.messageWord (bits msg) i)) := by
    refine List.map_congr_left fun t ht => UInt32.toBitVec_inj.mp ?_
    have early := List.mem_range.mp ht
    rw [toBitVec_loadWord (by omega), scheduled_first early]
  rw [words, first, words_loop]

/-! ### Blocks -/

theorem addBlock_variables (inside : 64 * i + 64 ≤ msg.length) (h : Registers) :
    (addBlock msg h (64 * i)).variables = Fips180.compress h.variables (Fips180.messageWord (bits msg) i) := by
  have entries (t : Nat) (inner : t < 64) : ((words msg (64 * i)).getD t 0).toBitVec =
      Fips180.schedule (Fips180.messageWord (bits msg) i) t := by
    rw [words_eq inside, getD_map_range _ inner, scheduled]
  have rounds := rounds_variables entries h 64 (Nat.le_refl _)
  rw [Fips180.compress, ← rounds]
  simp only [addBlock, Registers.variables, UInt32.toBitVec_add, BitVec.add_comm]

theorem blocks_variables (msg : List UInt8) (h : Registers) (n : Nat) (inside : 64 * n ≤ msg.length) :
    (((List.range n).map (64 * ·)).foldl (addBlock msg) h).variables =
      (List.range n).foldl (fun hash i => Fips180.compress hash (Fips180.messageWord (bits msg) i)) h.variables := by
  induction n with
  | zero => rfl
  | succ n ih =>
    rw [List.range_succ, List.map_append, List.foldl_append, List.foldl_append, List.map_singleton, List.foldl_cons,
      List.foldl_nil, List.foldl_cons, List.foldl_nil, addBlock_variables (by omega), ih (by omega)]

theorem bits_output (h : Registers) : bits ([h.a, h.b, h.c, h.d, h.e, h.f, h.g, h.hh].flatMap storeWord) =
    h.variables.words.flatMap fun w => binary 32 w.toNat := by
  simp only [List.flatMap_cons, List.flatMap_nil, bits_append, bits_storeWord, Registers.variables, Fips180.Variables.words]
  rfl

theorem length_paddedMessage (short : data.length < 2 ^ 61) :
    (paddedMessage data).length = paddedSize data.length := by
  rw [paddedMessage_eq short, paddedSize_eq]
  simp [lengthBytes]
  omega

theorem bits_hash (short : data.length < 2 ^ 61) : bits (hash data) = Fips180.sha256 (bits data) := by
  have length := length_paddedMessage short
  have whole : 64 * (paddedSize data.length / 64) = paddedSize data.length := by
    unfold paddedSize
    omega
  have count : (bits (paddedMessage data)).length / 512 = paddedSize data.length / 64 := by
    rw [length_bits, length]
    omega
  rw [Fips180.sha256, ← bits_paddedMessage short, count, ← start_variables, ← blocks_variables _ _ _ (by omega),
    ← bits_output]
  rfl

/-! ### Main result -/

/-- The digest is that of the standard. The buffer holds the message, the marker, the least number of zero bytes that
    reach 56 modulo 64, and the length in bits. -/
theorem hash_sha256 {data : List UInt8} (short : data.length < 2 ^ 61) :
    bits (hash data) = Fips180.sha256 (bits data) ∧
      ∃ k length, paddedMessage data = data ++ 0x80 :: List.replicate k 0 ++ length ∧
        (data.length + 1 + k) % 64 = 56 ∧ (∀ j < k, (data.length + 1 + j) % 64 ≠ 56) ∧
        length.length = 8 ∧ ofBinary (bits length) = 8 * data.length := by
  obtain ⟨fills, least⟩ := zeroBytes_least data.length
  refine ⟨bits_hash short, zeroBytes data.length, lengthBytes data.length, paddedMessage_eq short, fills, least, rfl, ?_⟩
  rw [bits_lengthBytes, Fips180.ofBinary_binary, Nat.mod_eq_of_lt (by omega)]

theorem hash_sha256_abc : bits (hash [0x61, 0x62, 0x63]) = Fips180.sha256 (bits [0x61, 0x62, 0x63]) :=
  (hash_sha256 (by decide)).1

/-- The digest of `abc`. -/
example : hash [0x61, 0x62, 0x63] =
    [0xba, 0x78, 0x16, 0xbf, 0x8f, 0x01, 0xcf, 0xea, 0x41, 0x41, 0x40, 0xde, 0x5d, 0xae, 0x22, 0x23,
     0xb0, 0x03, 0x61, 0xa3, 0x96, 0x17, 0x7a, 0x9c, 0xb4, 0x10, 0xff, 0x61, 0xf2, 0x00, 0x15, 0xad] := by
  decide +kernel

end WeftWarp.TwHRR.Sha256
