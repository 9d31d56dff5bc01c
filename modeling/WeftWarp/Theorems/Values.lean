import WeftWarp.Value

/-! # Shapes of values

Properties of a value and of everything inside it. -/

namespace WeftWarp

variable {F : Type}

mutual

/-- No object inside the value has a key twice. -/
def UniqueKeys : TwValue F → Prop
  | .array xs => UniqueKeysList xs
  | .dict kvs => (kvs.map Prod.fst).Nodup ∧ UniqueKeysEntries kvs
  | _ => True

/-- No object among the values has a key twice. -/
def UniqueKeysList : List (TwValue F) → Prop
  | [] => True
  | x :: xs => UniqueKeys x ∧ UniqueKeysList xs

/-- No object among the entries has a key twice. -/
def UniqueKeysEntries : Dict F → Prop
  | [] => True
  | (_, v) :: kvs => UniqueKeys v ∧ UniqueKeysEntries kvs

end

theorem uniqueKeysEntries_iff {kvs : Dict F} : UniqueKeysEntries kvs ↔ ∀ kv ∈ kvs, UniqueKeys kv.2 := by
  induction kvs with
  | nil => exact iff_of_true trivial fun _ mem => nomatch mem
  | cons kv kvs ih => rw [UniqueKeysEntries, ih, List.forall_mem_cons]

theorem uniqueKeys_of_mem {kvs : Dict F} (unique : UniqueKeysEntries kvs) {k : String}
    {v : TwValue F} (mem : (k, v) ∈ kvs) : UniqueKeys v :=
  uniqueKeysEntries_iff.mp unique (k, v) mem

mutual

/-- No number inside the value is a `double`. -/
def FloatFree : TwValue F → Prop
  | .float _ => False
  | .array xs => FloatFreeList xs
  | .dict kvs => FloatFreeEntries kvs
  | _ => True

/-- No double among the values. -/
def FloatFreeList : List (TwValue F) → Prop
  | [] => True
  | x :: xs => FloatFree x ∧ FloatFreeList xs

/-- No double among the entries. -/
def FloatFreeEntries : Dict F → Prop
  | [] => True
  | (_, v) :: kvs => FloatFree v ∧ FloatFreeEntries kvs

end

theorem floatFreeEntries_iff {kvs : Dict F} : FloatFreeEntries kvs ↔ ∀ kv ∈ kvs, FloatFree kv.2 := by
  induction kvs with
  | nil => exact iff_of_true trivial fun _ mem => nomatch mem
  | cons kv kvs ih => rw [FloatFreeEntries, ih, List.forall_mem_cons]

end WeftWarp
