import Mathlib.Data.String.Basic
import Mathlib.Data.List.Sort
import WeftWarp.Lib.OrderedMap

/-! # Values

The tagged union of `tw_value.hpp`. A `std::string` is a `String` whose characters stand for its bytes. The
C++ implementation supplies `double` and `std::hash`; both are parameters. -/

namespace WeftWarp

/-- What the C++ implementation supplies: the type `F` of `double`, its conversions and comparisons, and
    `std::hash<std::string>`. -/
class Cxx (F : Type) where
  /-- `double(int64_t)` -/
  ofInt64 : Int64 → F
  /-- `==` on `double` -/
  eq : F → F → Bool
  /-- `<` on `double` -/
  lt : F → F → Bool
  /-- `std::ostringstream << double` -/
  render : F → String
  /-- `std::stod`; `none` where it throws -/
  stod : List Char → Option F
  /-- The bits of a `double` that is not NaN -/
  bits : F → UInt64
  isNaN : F → Bool
  zero : F
  /-- `std::hash<std::string>` -/
  hashString : String → UInt64

/-- `TwValue` of `tw_value.hpp`. A dictionary lists its entries in insertion order. -/
inductive TwValue (F : Type) where
  | nil
  | bool (b : Bool)
  | int (i : Int64)
  | float (f : F)
  | string (s : String)
  | array (xs : List (TwValue F))
  | dict (kvs : List (String × TwValue F))

def twMixHash (h v : UInt64) : UInt64 :=
  h ^^^ (v + (0x9e3779b97f4a7c15 : UInt64) + (h <<< (6 : UInt64)) + (h >>> (2 : UInt64)))

/-- `TwValue::Dict`, with the entries in their order. -/
abbrev Dict (F : Type) := List (String × TwValue F)

namespace TwValue
variable {F : Type}

instance : Inhabited (TwValue F) := ⟨.nil⟩

/-! ### Accessors

An accessor answers the default of its field on a value of another type. -/

/-- The position of the type in `enum class Type`. -/
def typeIndex : TwValue F → Nat
  | .nil => 0
  | .bool _ => 1
  | .int _ => 2
  | .float _ => 3
  | .string _ => 4
  | .array _ => 5
  | .dict _ => 6

def isBool : TwValue F → Bool
  | .bool _ => true
  | _ => false

def isInt : TwValue F → Bool
  | .int _ => true
  | _ => false

def isString : TwValue F → Bool
  | .string _ => true
  | _ => false

def isArray : TwValue F → Bool
  | .array _ => true
  | _ => false

def isDict : TwValue F → Bool
  | .dict _ => true
  | _ => false

def isNumber : TwValue F → Bool
  | .int _ | .float _ => true
  | _ => false

def asBool : TwValue F → Bool
  | .bool b => b
  | _ => false

def asInt : TwValue F → Int64
  | .int i => i
  | _ => 0

def asString : TwValue F → String
  | .string s => s
  | _ => ""

/-- `as_array`, read only behind `is_array`. -/
def asArray : TwValue F → List (TwValue F)
  | .array xs => xs
  | _ => []

/-- `as_dict`, read only behind `is_dict`. -/
def asDict : TwValue F → Dict F
  | .dict kvs => kvs
  | _ => []

/-! ### Structural equality -/

section Same
variable [DecidableEq F]

mutual

/-- Structural equality, which `operator==` is not. -/
def same : TwValue F → TwValue F → Bool
  | .nil, .nil => true
  | .bool a, .bool b => a == b
  | .int a, .int b => a == b
  | .float a, .float b => a == b
  | .string a, .string b => a == b
  | .array xs, .array ys => sameList xs ys
  | .dict kvs, .dict kws => sameEntries kvs kws
  | _, _ => false

def sameList : List (TwValue F) → List (TwValue F) → Bool
  | [], [] => true
  | x :: xs, y :: ys => same x y && sameList xs ys
  | _, _ => false

def sameEntries : Dict F → Dict F → Bool
  | [], [] => true
  | (k, v) :: kvs, (k', v') :: kvs' => k == k' && same v v' && sameEntries kvs kvs'
  | _, _ => false

end

mutual

theorem same_iff : ∀ a b : TwValue F, same a b = true ↔ a = b
  | a, .array ys => by cases a <;> simp [same, sameList_iff]
  | a, .dict ys => by cases a <;> simp [same, sameEntries_iff]
  | a, .nil => by cases a <;> simp [same]
  | a, .bool b => by cases a <;> simp [same]
  | a, .int b => by cases a <;> simp [same]
  | a, .float b => by cases a <;> simp [same]
  | a, .string b => by cases a <;> simp [same]

theorem sameList_iff : ∀ xs ys : List (TwValue F), sameList xs ys = true ↔ xs = ys
  | [], [] => by simp [sameList]
  | [], _ :: _ => by simp [sameList]
  | _ :: _, [] => by simp [sameList]
  | x :: xs, y :: ys => by simp [sameList, same_iff x y, sameList_iff xs ys]

theorem sameEntries_iff : ∀ xs ys : Dict F, sameEntries xs ys = true ↔ xs = ys
  | [], [] => by simp [sameEntries]
  | [], _ :: _ => by simp [sameEntries]
  | _ :: _, [] => by simp [sameEntries]
  | (k, v) :: kvs, (k', v') :: kvs' => by
    simp [sameEntries, same_iff v v', sameEntries_iff kvs kvs']

end

instance : DecidableEq (TwValue F) := fun a b => decidable_of_iff (same a b = true) (same_iff a b)

end Same
variable [Cxx F]

/-! ### Comparison -/

def asNumber : TwValue F → F
  | .int i => Cxx.ofInt64 i
  | .float f => f
  | _ => Cxx.zero

mutual

/-- `operator==`. Numbers compare as `double`; two dictionaries are never equal. -/
def eq : TwValue F → TwValue F → Bool
  | .int a, .int b => Cxx.eq (F := F) (Cxx.ofInt64 a) (Cxx.ofInt64 b)
  | .int a, .float b => Cxx.eq (Cxx.ofInt64 a) b
  | .float a, .int b => Cxx.eq a (Cxx.ofInt64 b)
  | .float a, .float b => Cxx.eq a b
  | .nil, .nil => true
  | .bool a, .bool b => a == b
  | .string a, .string b => a == b
  | .array xs, .array ys => eqList xs ys
  | _, _ => false

/-- `==` on `std::vector<TwValue>`. -/
def eqList : List (TwValue F) → List (TwValue F) → Bool
  | [], [] => true
  | x :: xs, y :: ys => eq x y && eqList xs ys
  | _, _ => false

end

/-- `operator<`. -/
def lt (a b : TwValue F) : Bool :=
  if a.isNumber && b.isNumber then Cxx.lt a.asNumber b.asNumber
  else if a.typeIndex ≠ b.typeIndex then a.typeIndex < b.typeIndex
  else match a, b with
    | .string s, .string t => s < t
    | _, _ => false

/-- `operator<=`. -/
def le (a b : TwValue F) : Bool := !lt b a

/-! ### Text -/

mutual

def toText : TwValue F → String
  | .nil => "nil"
  | .bool b => if b then "true" else "false"
  | .int i => toString i.toInt
  | .float f => Cxx.render f
  | .string s => s
  | .array xs => "[" ++ ", ".intercalate (toTexts xs) ++ "]"
  | .dict kvs => "\x7b" ++ ", ".intercalate (entryTexts kvs) ++ "\x7d"

def toTexts : List (TwValue F) → List String
  | [] => []
  | x :: xs => toText x :: toTexts xs

def entryTexts : Dict F → List String
  | [] => []
  | (k, v) :: kvs => (k ++ ": " ++ toText v) :: entryTexts kvs

end

/-! ### Hash -/

/-- The bits `stable_hash` mixes in for a `double`. -/
def floatBits (f : F) : UInt64 :=
  -- -0.0 compares equal to 0.0 and hashes as it.
  let v := if Cxx.eq f Cxx.zero then Cxx.zero else f
  if Cxx.isNaN v then 0x7ff8000000000000 else Cxx.bits v

mutual

/-- `stable_hash`. The entries of a dictionary are mixed in by sorted key. -/
def stableHash : TwValue F → UInt64
  | .nil => twMixHash 1469598103934665603 0
  | .bool b => twMixHash (twMixHash 1469598103934665603 1) (if b then 1 else 0)
  | .int i => twMixHash (twMixHash 1469598103934665603 2) i.toUInt64
  | .float f => twMixHash (twMixHash 1469598103934665603 3) (floatBits f)
  | .string s => twMixHash (twMixHash 1469598103934665603 4) (Cxx.hashString F s)
  | .array xs =>
    (stableHashes xs).foldl twMixHash (twMixHash (twMixHash 1469598103934665603 5) (UInt64.ofNat xs.length))
  | .dict kvs =>
    let hashes := entryHashes kvs
    let keys := (kvs.map Prod.fst).insertionSort (· ≤ ·)
    keys.foldl (fun out k => twMixHash (twMixHash out (Cxx.hashString F k)) ((hashes.lookup k).getD 0))
      (twMixHash (twMixHash 1469598103934665603 6) (UInt64.ofNat keys.length))

def stableHashes : List (TwValue F) → List UInt64
  | [] => []
  | x :: xs => stableHash x :: stableHashes xs

def entryHashes : Dict F → List (String × UInt64)
  | [] => []
  | (k, v) :: kvs => (k, stableHash v) :: entryHashes kvs

end

end TwValue

/-- Integers in the place of the doubles that hold them, and FNV-1a as `std::hash`: enough to run the model on
    inputs without fractions. -/
instance : Cxx Int where
  ofInt64 i := i.toInt
  eq a b := a == b
  lt a b := a < b
  render a := toString a
  stod _ := none
  bits a := UInt64.ofInt a
  isNaN _ := false
  zero := 0
  hashString s := s.toList.foldl (fun h c => (h ^^^ UInt64.ofNat c.toNat) * 1099511628211) 14695981039346656037

end WeftWarp
