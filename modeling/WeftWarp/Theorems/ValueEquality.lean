import WeftWarp.Domain
import WeftWarp.Lib.RoundEven
import WeftWarp.Theorems.Values

/-! # Equality of values

`operator==` compares numbers as `double` across their types and never finds two dictionaries equal. A goal asks it
whether a value was reached, and the memo keys of the planner hash what it compares. -/

namespace WeftWarp

variable {F : Type} [Cxx F]

/-! ### Equality and structure -/

mutual

/-- The value has no dictionary inside, and each of its integers is the only one that has its `double`. -/
def Recognisable : TwValue F → Prop
  | .int i => ∀ j, Cxx.eq (F := F) (Cxx.ofInt64 i) (Cxx.ofInt64 j) = true ↔ j = i
  | .array xs => RecognisableList xs
  | .dict _ => False
  | _ => True

/-- Every value is recognisable. -/
def RecognisableList : List (TwValue F) → Prop
  | [] => True
  | x :: xs => Recognisable x ∧ RecognisableList xs

end

mutual

theorem eq_iff_of_recognisable : ∀ {v w : TwValue F}, FloatFree v → Recognisable v → FloatFree w → (v.eq w = true ↔ w = v)
  | .nil, w, _, _, _ => by cases w <;> simp [TwValue.eq]
  | .bool a, w, _, _, _ => by
    cases w with
    | bool b => rw [TwValue.eq, beq_iff_eq, TwValue.bool.injEq, eq_comm]
    | _ => simp [TwValue.eq]
  | .string a, w, _, _, _ => by
    cases w with
    | string b => rw [TwValue.eq, beq_iff_eq, TwValue.string.injEq, eq_comm]
    | _ => simp [TwValue.eq]
  | .int i, w, _, only, floatFree => by
    cases w with
    | int j => rw [TwValue.eq, only j, TwValue.int.injEq]
    | float f => exact absurd floatFree id
    | _ => simp [TwValue.eq]
  | .array xs, w, floatFreeV, recognisable, floatFreeW => by
    cases w with
    | array ys =>
      rw [TwValue.eq, eqList_iff_of_recognisable floatFreeV recognisable floatFreeW, TwValue.array.injEq]
    | _ => simp [TwValue.eq]
  | .float f, _, floatFree, _, _ => absurd floatFree id
  | .dict kvs, _, _, recognisable, _ => absurd recognisable id

theorem eqList_iff_of_recognisable : ∀ {xs ys : List (TwValue F)}, FloatFreeList xs → RecognisableList xs → FloatFreeList ys →
    (TwValue.eqList xs ys = true ↔ ys = xs)
  | [], ys, _, _, _ => by cases ys <;> simp [TwValue.eqList]
  | x :: xs, [], _, _, _ => by simp [TwValue.eqList]
  | x :: xs, y :: ys, floatFreeX, recognisable, floatFreeY => by
    rw [TwValue.eqList, Bool.and_eq_true, eq_iff_of_recognisable floatFreeX.1 recognisable.1 floatFreeY.1,
      eqList_iff_of_recognisable floatFreeX.2 recognisable.2 floatFreeY.2, List.cons.injEq]

end

mutual

/-- Only such a value is told from every other: a dictionary differs from itself, and an integer equals those that share
    its `double`. -/
theorem recognisable_of_eq_iff : ∀ {v : TwValue F}, FloatFree v → (∀ w, FloatFree w → (v.eq w = true ↔ w = v)) →
    Recognisable v
  | .nil, _, _ => trivial
  | .bool _, _, _ => trivial
  | .string _, _, _ => trivial
  | .float _, floatFree, _ => absurd floatFree id
  | .int i, _, decides => fun j => by
    have compared := decides (.int j) trivial
    rwa [TwValue.eq, TwValue.int.injEq] at compared
  | .dict kvs, floatFree, decides => by
    have self := (decides (.dict kvs) floatFree).mpr rfl
    rw [TwValue.eq] at self
    · cases self
    all_goals simp
  | .array xs, floatFree, decides => by
    refine recognisableList_of_eqList_iff floatFree fun ys floatFreeY => ?_
    have compared := decides (.array ys) floatFreeY
    rwa [TwValue.eq, TwValue.array.injEq] at compared

theorem recognisableList_of_eqList_iff : ∀ {xs : List (TwValue F)}, FloatFreeList xs →
    (∀ ys, FloatFreeList ys → (TwValue.eqList xs ys = true ↔ ys = xs)) → RecognisableList xs
  | [], _, _ => trivial
  | x :: xs, floatFree, decides => by
    have self := (decides (x :: xs) floatFree).mpr rfl
    rw [TwValue.eqList, Bool.and_eq_true] at self
    -- Each part is compared with the other part left as it is.
    refine ⟨recognisable_of_eq_iff floatFree.1 fun w floatFreeW => ?_,
      recognisableList_of_eqList_iff floatFree.2 fun ys floatFreeY => ?_⟩
    · have compared := decides (w :: xs) ⟨floatFreeW, floatFree.2⟩
      simpa [TwValue.eqList, self.2] using compared
    · have compared := decides (x :: ys) ⟨floatFree.1, floatFreeY⟩
      simpa [TwValue.eqList, self.1] using compared

end

/-! ### The doubles of integers -/

namespace IntegralDouble

/-- The encoding in binary64: the sign, the exponent with its bias, and the bits behind the leading one. -/
def bits (x : IntegralDouble) : UInt64 :=
  let n := x.value.natAbs
  let e := n.log2
  let fraction := (if e ≤ 52 then n <<< (52 - e) else n >>> (e - 52)) % 2 ^ 52
  if n = 0 then 0 else .ofNat ((if x.value < 0 then 2 ^ 63 else 0) + (1023 + e) * 2 ^ 52 + fraction)

/-- Texts are those of the integers, and none is read. -/
instance : Cxx IntegralDouble where
  ofInt64 := ofInt64
  eq x y := x == y
  lt x y := x.value < y.value
  render x := toString x.value
  stod _ := none
  bits := bits
  isNaN _ := false
  zero := ⟨0⟩
  hashString := Cxx.hashString Int

end IntegralDouble

/-- An integer below 2 ^ 53 is told from every other. -/
theorem recognisable_int {i : Int64} (small : i.toInt.natAbs < 2 ^ 53) : Recognisable (.int i : TwValue IntegralDouble) := by
  intro j
  have compared : Cxx.eq (F := IntegralDouble) (Cxx.ofInt64 i) (Cxx.ofInt64 j) =
      (IntegralDouble.ofInt64 i == IntegralDouble.ofInt64 j) := rfl
  rw [compared, beq_iff_eq]
  exact ⟨IntegralDouble.eq_of_ofInt64 small, fun same => by rw [same]⟩

/-! ### Goals -/

theorem getNested_setNested (s : TwState F) (var : String) (key v : TwValue F) : (s.setNested var key v).getNested var key = v := by
  simp [TwState.getNested, TwState.setNested, TwState.getVar, TwValue.asDict, lookup_setEntry_self]

theorem satisfied_of_noEdges {s : TwState F} (noEdges : ∀ g, s.rebacGraph = some g → g.edges = []) (b : TwGoalBinding F) :
    b.satisfied s = .ok ((s.getNested b.var (.string b.key)).eq b.desired) := by
  rw [TwGoalBinding.satisfied]
  cases graph : s.rebacGraph with
  | none => rfl
  | some g => simp [noEdges g graph]

/-- In a state without edges a goal recognises the value that was written, and no other, exactly if the value has no
    dictionary inside and no integer that shares its `double`. -/
theorem satisfied_setNested_iff (s : TwState F) (noEdges : ∀ g, s.rebacGraph = some g → g.edges = []) (var key : String)
    (v : TwValue F) (floatFree : FloatFree v) :
    (∀ w, FloatFree w → ((⟨var, key, w⟩ : TwGoalBinding F).satisfied (s.setNested var (.string key) v) = .ok true ↔ w = v)) ↔
      Recognisable v := by
  have satisfied (w : TwValue F) :
      (⟨var, key, w⟩ : TwGoalBinding F).satisfied (s.setNested var (.string key) v) = .ok (v.eq w) := by
    rw [satisfied_of_noEdges (s := s.setNested var (.string key) v) noEdges, getNested_setNested]
  simp only [satisfied, Except.ok.injEq]
  exact ⟨recognisable_of_eq_iff floatFree, fun recognisable w => eq_iff_of_recognisable floatFree recognisable⟩

theorem satisfied_setNested_route :
    let route : TwValue IntegralDouble := .array [.int (-4), .string "a"]
    FloatFree route ∧ Recognisable route ∧ ∀ w, FloatFree w →
      ((⟨"route", "robot", w⟩ : TwGoalBinding IntegralDouble).satisfied
        (TwState.empty.setNested "route" (.string "robot") route) = .ok true ↔ w = route) := by
  intro route
  have floatFree : FloatFree route := ⟨trivial, trivial, trivial⟩
  have recognisable : Recognisable route := ⟨recognisable_int (by decide), trivial, trivial⟩
  exact ⟨floatFree, recognisable,
    (satisfied_setNested_iff .empty (fun _ graph => nomatch graph) "route" "robot" route floatFree).mpr recognisable⟩

/-- The dictionary that was just written is not recognised, and an integer that was not written is. -/
theorem satisfied_setNested_misjudged :
    (⟨"bag", "robot", .dict [("bolts", .int 2)]⟩ : TwGoalBinding IntegralDouble).satisfied
        (TwState.empty.setNested "bag" (.string "robot") (.dict [("bolts", .int 2)])) = .ok false ∧
      (⟨"count", "robot", .int 9007199254740993⟩ : TwGoalBinding IntegralDouble).satisfied
        (TwState.empty.setNested "count" (.string "robot") (.int 9007199254740992)) = .ok true := by
  constructor <;> decide +kernel

/-! ### Hashes -/

mutual

/-- Where both values have a number it has the same type, and the same value if it is an integer. -/
def SameNumbers : TwValue F → TwValue F → Prop
  | .int i, .int j => i = j
  | .int _, .float _ | .float _, .int _ => False
  | .array xs, .array ys => SameNumbersList xs ys
  | _, _ => True

/-- The values have the same numbers one by one. -/
def SameNumbersList : List (TwValue F) → List (TwValue F) → Prop
  | x :: xs, y :: ys => SameNumbers x y ∧ SameNumbersList xs ys
  | _, _ => True

end

/-- Equal doubles are the same, or they are the two zeros. -/
def EqualUpToZero (F : Type) [Cxx F] : Prop :=
  ∀ f g : F, Cxx.eq f g = true → f = g ∨ Cxx.eq f Cxx.zero = true ∧ Cxx.eq g Cxx.zero = true

/-- The two zeros are hashed as one. -/
theorem floatBits_eq_of_eq (doubles : EqualUpToZero F) {f g : F} (equal : Cxx.eq f g = true) :
    TwValue.floatBits f = TwValue.floatBits g := by
  rcases doubles f g equal with rfl | ⟨left, right⟩
  · rfl
  · rw [TwValue.floatBits, TwValue.floatBits, if_pos left, if_pos right]

mutual

theorem stableHash_eq_of_sameNumbers (doubles : EqualUpToZero F) :
    ∀ {a b : TwValue F}, a.eq b = true → SameNumbers a b → a.stableHash = b.stableHash
  | .nil, b, equal, _ => by
    cases b with
    | nil => rfl
    | _ => simp [TwValue.eq] at equal
  | .bool p, b, equal, _ => by
    cases b with
    | bool q =>
      rw [TwValue.eq, beq_iff_eq] at equal
      rw [equal]
    | _ => simp [TwValue.eq] at equal
  | .string s, b, equal, _ => by
    cases b with
    | string t =>
      rw [TwValue.eq, beq_iff_eq] at equal
      rw [equal]
    | _ => simp [TwValue.eq] at equal
  | .int i, b, equal, numbers => by
    cases b with
    | int j => rw [show i = j from numbers]
    | float g => exact absurd numbers id
    | _ => simp [TwValue.eq] at equal
  | .float f, b, equal, numbers => by
    cases b with
    | float g =>
      rw [TwValue.eq] at equal
      rw [TwValue.stableHash, TwValue.stableHash, floatBits_eq_of_eq doubles equal]
    | int j => exact absurd numbers id
    | _ => simp [TwValue.eq] at equal
  | .array xs, b, equal, numbers => by
    cases b with
    | array ys =>
      rw [TwValue.eq] at equal
      obtain ⟨hashes, length⟩ := stableHashes_eq_of_sameNumbers doubles equal numbers
      rw [TwValue.stableHash, TwValue.stableHash, hashes, length]
    | _ => simp [TwValue.eq] at equal
  | .dict kvs, b, equal, _ => by
    cases b <;> simp [TwValue.eq] at equal

theorem stableHashes_eq_of_sameNumbers (doubles : EqualUpToZero F) :
    ∀ {xs ys : List (TwValue F)}, TwValue.eqList xs ys = true → SameNumbersList xs ys →
      TwValue.stableHashes xs = TwValue.stableHashes ys ∧ xs.length = ys.length
  | [], [], _, _ => ⟨rfl, rfl⟩
  | [], _ :: _, equal, _ => by simp [TwValue.eqList] at equal
  | _ :: _, [], equal, _ => by simp [TwValue.eqList] at equal
  | x :: xs, y :: ys, equal, numbers => by
    rw [TwValue.eqList, Bool.and_eq_true] at equal
    have head := stableHash_eq_of_sameNumbers doubles equal.1 numbers.1
    obtain ⟨tail, length⟩ := stableHashes_eq_of_sameNumbers doubles equal.2 numbers.2
    rw [TwValue.stableHashes, TwValue.stableHashes, head, tail, List.length_cons, List.length_cons, length]
    exact ⟨rfl, rfl⟩

end

/-- For one state of the hash the mixing loses nothing. -/
theorem twMixHash_inj (h : UInt64) {v w : UInt64} (same : twMixHash h v = twMixHash h w) : v = w := by
  have sums := congrArg (h ^^^ ·) same
  simpa [twMixHash, ← UInt64.xor_assoc] using sums

/-- Equal values hash alike if corresponding numbers have the same type and corresponding integers the same value. Two
    integers hash alike only if they are the same, whatever their doubles. -/
theorem stableHash_eq_of_eq (doubles : EqualUpToZero F) :
    (∀ a b : TwValue F, a.eq b = true → SameNumbers a b → a.stableHash = b.stableHash) ∧
      ∀ i j : Int64, (.int i : TwValue F).stableHash = (.int j : TwValue F).stableHash ↔ i = j := by
  refine ⟨fun a b => stableHash_eq_of_sameNumbers doubles, fun i j => ⟨fun same => ?_, fun same => by rw [same]⟩⟩
  rw [TwValue.stableHash, TwValue.stableHash] at same
  exact congrArg Int64.ofUInt64 (twMixHash_inj _ same)

/-- The `double`s 0.0 and -0.0. -/
inductive SignedZero where
  | plus
  | minus

instance : Cxx SignedZero where
  ofInt64 _ := .plus
  eq _ _ := true
  lt _ _ := false
  render z := z.casesOn "0" "-0"
  stod _ := none
  bits z := z.casesOn 0 0x8000000000000000
  isNaN _ := false
  zero := .plus
  hashString := Cxx.hashString Int

theorem stableHash_eq_of_eq_zeros :
    Cxx.bits SignedZero.plus ≠ Cxx.bits SignedZero.minus ∧
      (.array [.int 3, .float .plus] : TwValue SignedZero).stableHash =
        (.array [.int 3, .float .minus] : TwValue SignedZero).stableHash := by
  refine ⟨by decide, (stableHash_eq_of_eq fun _ _ _ => .inr ⟨rfl, rfl⟩).1 _ _ (by decide) ⟨rfl, trivial, trivial⟩⟩

/-- An integer equals the `double` of its value and another integer, and hashes otherwise than both. -/
theorem stableHash_ne_of_eq :
    (.int 1 : TwValue IntegralDouble).eq (.float ⟨1⟩) = true ∧
      (.int 1 : TwValue IntegralDouble).stableHash ≠ (.float ⟨1⟩ : TwValue IntegralDouble).stableHash ∧
      (.int 9007199254740992 : TwValue IntegralDouble).eq (.int 9007199254740993) = true ∧
      (.int 9007199254740992 : TwValue IntegralDouble).stableHash ≠
        (.int 9007199254740993 : TwValue IntegralDouble).stableHash := by
  refine ⟨?_, ?_, ?_, ?_⟩ <;> decide +kernel

end WeftWarp
