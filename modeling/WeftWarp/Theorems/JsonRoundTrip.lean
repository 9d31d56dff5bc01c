import WeftWarp.Theorems.JsonReads
import WeftWarp.Theorems.Values

/-! # JSON texts and back

What the serialiser writes for a value without doubles, the parser reads as that value: the strings byte by byte, the
keys of an object in their order. -/

namespace WeftWarp

open TwJson

variable {F : Type} [Cxx F]

/-! ### Strings -/

theorem spells_escapeChar (c : Char) : Spells (escapeChar c) [c] := by
  by_cases quote : c = '"'
  · subst quote
    exact .escape '"' .nil
  by_cases slash : c = '\\'
  · subst slash
    exact .escape '\\' .nil
  by_cases newline : c = '\n'
  · subst newline
    exact .escape 'n' .nil
  by_cases carriageReturn : c = '\r'
  · subst carriageReturn
    exact .escape 'r' .nil
  by_cases tab : c = '\t'
  · subst tab
    exact .escape 't' .nil
  have same : escapeChar c = [c] := by simp [escapeChar, quote, slash, newline, carriageReturn, tab]
  rw [same]
  exact .raw quote slash .nil

theorem spells_escaped (s : List Char) : Spells (s.flatMap escapeChar) s := by
  have spells : Spells (s.flatMap escapeChar) (s.flatMap fun c => [c]) := .flatMap fun c _ => spells_escapeChar c
  rwa [List.flatMap_singleton'] at spells

theorem toList_escapeString (s : String) : (escapeString s).toList = '"' :: s.toList.flatMap escapeChar ++ ['"'] := by
  rw [escapeString, String.toList_ofList]

theorem reads_escapeString (s : String) : Reads (escapeString s).toList (.ok (.string s : TwValue F)) := by
  have reads : Reads (F := F) _ (.ok (.string (String.ofList s.toList))) := reads_string (spells_escaped s.toList)
  rwa [String.ofList_toList, ← toList_escapeString] at reads

/-! ### Integers -/

theorem digits_repr (n : Nat) : Digits n.repr.toList := by
  intro c mem
  rw [Nat.toList_repr] at mem
  have digit := Nat.isDigit_of_mem_toDigits (by decide) (by decide) mem
  simpa [isDigit, Char.isDigit, Char.le_def] using digit

theorem digitsValue_repr (n : Nat) : digitsValue n.repr.toList = n := by
  rw [Nat.toList_repr]
  exact Nat.ofDigitChars_toDigits (by decide) (by decide)

theorem repr_ne_nil (n : Nat) : n.repr.toList ≠ [] := by
  rw [Nat.toList_repr]
  exact Nat.toDigits_ne_nil

theorem reads_int (i : Int64) : Reads (toString i.toInt).toList (.ok (.int i : TwValue F)) := by
  rw [Int.toString_eq_repr]
  cases value : i.toInt with
  | ofNat n =>
    refine reads_integer (.inl rfl) (repr_ne_nil n) (digits_repr n) ?_
    change signedValue [] n.repr.toList = i.toInt
    rw [signedValue, if_pos rfl, digitsValue_repr, value]
    rfl
  | negSucc n =>
    rw [Int.repr, String.toList_append]
    refine reads_integer (.inr rfl) (repr_ne_nil (n + 1)) (digits_repr (n + 1)) ?_
    rw [signedValue, if_neg (by decide), digitsValue_repr, value]
    rfl

/-! ### Values -/

mutual

theorem reads_toJson : ∀ {v : TwValue F}, UniqueKeys v → FloatFree v → Reads (toJson v).toList (.ok v)
  | .nil, _, _ => by
    rw [toJson]
    exact reads_null
  | .bool b, _, _ => by
    rw [toJson]
    exact reads_bool b
  | .int i, _, _ => by
    rw [toJson]
    exact reads_int i
  | .string s, _, _ => by
    rw [toJson]
    exact reads_escapeString s
  | .array xs, unique, floatFree => by
    have text : (toJson (.array xs)).toList = '[' :: [','].intercalate ((toJsons xs).map String.toList) ++ [']'] := by
      simp [toJson]
    have reads := reads_array (reads_toJsons unique floatFree)
    rw [collect_ok] at reads
    rw [text]
    exact reads
  | .dict kvs, unique, floatFree => by
    have text : (toJson (.dict kvs)).toList = '\x7b' :: [','].intercalate ((entryJsons kvs).map String.toList) ++ ['\x7d'] := by
      simp [toJson]
    have reads := reads_object (reads_entryJsons unique.2 floatFree)
    have entries : (kvs.map fun kv => (kv.1, .ok kv.2)).map named = kvs.map (.ok : _ → Except Thrown _) := by
      rw [List.map_map]
      rfl
    rw [entries, collect_ok] at reads
    have ordered : setEntries kvs [] = kvs := setEntries_of_nodup unique.1
    rw [text]
    simpa [Except.map, ordered] using reads

theorem reads_toJsons : ∀ {xs : List (TwValue F)}, UniqueKeysList xs → FloatFreeList xs →
    List.Forall₂ Padded ((toJsons xs).map String.toList) (xs.map .ok)
  | [], _, _ => .nil
  | _ :: _, unique, floatFree =>
    .cons (reads_toJson unique.1 floatFree.1).padded (reads_toJsons unique.2 floatFree.2)

theorem reads_entryJsons : ∀ {kvs : Dict F}, UniqueKeysEntries kvs → FloatFreeEntries kvs →
    List.Forall₂ (fun t m => ReadsMember t m.1 m.2) ((entryJsons kvs).map String.toList) (kvs.map fun kv => (kv.1, .ok kv.2))
  | [], _, _ => .nil
  | (k, v) :: kvs, unique, floatFree => by
    refine .cons ?_ (reads_entryJsons unique.2 floatFree.2)
    refine ⟨[], k.toList.flatMap escapeChar, [], (toJson v).toList, ?_, blank_nil, spells_escaped k.toList, blank_nil,
      (reads_toJson unique.1 floatFree.1).padded⟩
    simp [toList_escapeString]

end

theorem parseJsonStr_written {v : TwValue F} {text : String} (written : toJson v = text) (unique : UniqueKeys v)
    (floatFree : FloatFree v) : parseJsonStr text = .ok v := by
  have parsed := (reads_toJson unique floatFree).padded.parseJsonStr_eq
  rwa [String.ofList_toList, written] at parsed

/-- A value without doubles is read back from its text as it was, with its strings byte by byte and its keys in
    order. -/
theorem parseJsonStr_toJson (v : TwValue F) (unique : UniqueKeys v) (floatFree : FloatFree v) :
    parseJsonStr (toJson v) = .ok v :=
  parseJsonStr_written rfl unique floatFree

/-- An object with every kind of value and every escape. -/
def sampler : TwValue Int :=
  .dict [("say \"hi\"", .array [.int (-9223372036854775808), .nil, .bool true, .dict []]), ("\\\t\r\n/", .string "\x00\x08\x7f")]

theorem parseJsonStr_sampler : UniqueKeys sampler ∧ FloatFree sampler ∧ parseJsonStr (toJson sampler) = .ok sampler := by
  have unique : UniqueKeys sampler := by simp [sampler, UniqueKeys, UniqueKeysEntries, UniqueKeysList]
  have floatFree : FloatFree sampler := by simp [sampler, FloatFree, FloatFreeEntries, FloatFreeList]
  exact ⟨unique, floatFree, parseJsonStr_toJson sampler unique floatFree⟩

end WeftWarp
