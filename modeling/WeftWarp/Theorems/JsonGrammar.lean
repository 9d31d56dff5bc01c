import WeftWarp.Lib.Rfc8259
import WeftWarp.Theorems.JsonReads

/-! # The JSON grammar and the parser

What the parser reads from a text of RFC 8259. Of an escape other than `\" \\ \/ \n \r \t` it drops the backslash and
keeps what follows. -/

namespace WeftWarp

open TwJson Rfc8259

variable {F : Type} [Cxx F]

/-! ### Strings -/

/-- What the parser reads for a character of a string. -/
def asRead : StringChar → List Char
  | .unescaped c _ => utf8 c
  | .short e => [unescape e.letter]
  | .unicode q => 'u' :: q.chars

theorem hexDigit_raw (h : HexDigit) : h.char ≠ '"' ∧ h.char ≠ '\\' := by
  obtain ⟨value, upper⟩ := h
  revert value upper
  decide

theorem spells_asRead (u : StringChar) : Spells u.text (asRead u) := by
  cases u with
  | unescaped c allowed =>
    refine spells_raw fun o mem => ?_
    rcases mem_utf8 mem with rfl | high
    · exact allowed.2
    · constructor <;> rintro rfl <;> exact absurd high (by decide)
  | short e => exact .escape e.letter .nil
  | unicode q =>
    refine .escape 'u' (spells_raw fun c mem => ?_)
    simp only [Quad.chars, List.mem_cons, List.not_mem_nil, or_false] at mem
    rcases mem with rfl | rfl | rfl | rfl <;> exact hexDigit_raw _

theorem spells_text (s : List StringChar) : Spells (s.flatMap StringChar.text) (s.flatMap asRead) :=
  .flatMap fun u _ => spells_asRead u

/-! ### Numbers -/

theorem digits_map (ds : List (Fin 10)) : Digits (ds.map digitChar) := by
  have digit : ∀ d : Fin 10, isDigit (digitChar d) = true := by decide
  intro c mem
  obtain ⟨d, -, rfl⟩ := List.mem_map.mp mem
  exact digit d

theorem reads_numberText (n : Number) :
    Reads (F := F) n.text (numberValue n.text (!n.fracChars.isEmpty || !n.expChars.isEmpty)) := by
  refine reads_number n.signChars_cases n.intChars_ne_nil (digits_map _) ?_ ?_
  · unfold Number.fracChars
    cases n.frac with
    | none => exact .inl rfl
    | some ds => exact .inr ⟨ds.chars, rfl, digits_map _⟩
  · unfold Number.expChars
    cases n.exp with
    | none => exact .inl rfl
    | some e =>
      refine .inr ⟨_, e.sign.chars, e.digits.chars, rfl, ?_, ?_, by simp [Digits1.chars], digits_map _⟩
      · cases e.upper
        · exact .inl rfl
        · exact .inr rfl
      · cases e.sign
        · exact .inl rfl
        · exact .inr (.inl rfl)
        · exact .inr (.inr rfl)

theorem digitsValue_map (ds : List (Fin 10)) : digitsValue (ds.map digitChar) = decimal ds := by
  have value : ∀ d : Fin 10, (digitChar d).toNat - '0'.toNat = d := by decide
  rw [digitsValue, decimal, List.foldl_map]
  simp only [value]

/-- An integer of 64 bits is read as such. -/
theorem numberValue_integer {n : Number} {i : Int} (integer : n.integer = some i)
    (range : Int64.minValue.toInt ≤ i ∧ i ≤ Int64.maxValue.toInt) :
    numberValue (F := F) n.text (!n.fracChars.isEmpty || !n.expChars.isEmpty) = .ok (.int (Int64.ofInt i)) := by
  have back : (Int64.ofInt i).toInt = i := by
    rw [Int64.toInt_minValue, Int64.toInt_maxValue] at range
    exact Int64.toInt_ofInt_of_le range.1 (by omega)
  unfold Number.integer at integer
  split at integer
  · rename_i noFrac noExp
    have value : signedValue n.signChars n.intChars = (Int64.ofInt i).toInt := by
      rw [back, signedValue, Number.intChars, digitsValue_map, ← Option.some.inj integer]
      cases minus : n.minus <;> simp [Number.signChars, minus]
    have token : stoll (n.signChars ++ n.intChars) = some (Int64.ofInt i) :=
      stoll_eq n.signChars_cases n.intChars_ne_nil (digits_map _) value
    simp [numberValue, Number.text, Number.fracChars, Number.expChars, noFrac, noExp, token]
  · cases integer

/-! ### Values -/

mutual

/-- What the parser answers on the text of a value. -/
def read : Json → Except Thrown (TwValue F)
  | .null => .ok .nil
  | .bool b => .ok (.bool b)
  | .number n => numberValue n.text (!n.fracChars.isEmpty || !n.expChars.isEmpty)
  | .string s => .ok (.string (String.ofList (s.flatMap asRead)))
  | .emptyArray _ => .ok (.array [])
  | .array items => (collect (readItems items)).map .array
  | .emptyObject _ => .ok (.dict [])
  | .object members => (collect ((readMembers members).map named)).map fun kvs => .dict (setEntries kvs [])

/-- What the parser makes of the elements. -/
def readItems : Items → List (Except Thrown (TwValue F))
  | .last _ value _ => [read value]
  | .cons _ value _ items => read value :: readItems items

/-- What the parser makes of the members. -/
def readMembers : Members → List (String × Except Thrown (TwValue F))
  | .last _ name _ _ value _ => [(String.ofList (name.flatMap asRead), read value)]
  | .cons _ name _ _ value _ members => (String.ofList (name.flatMap asRead), read value) :: readMembers members

end

theorem blank_blanks (ws : List Space) : Blank (blanks ws) := by
  intro c mem
  obtain ⟨w, -, rfl⟩ := List.mem_map.mp mem
  cases w <;> rfl

theorem padded_blanks {t : List Char} {r : Except Thrown (TwValue F)} (reads : Reads t r) (before after : List Space) :
    Padded (blanks before ++ t ++ blanks after) r :=
  ⟨blanks before, t, blanks after, rfl, blank_blanks before, blank_blanks after, reads⟩

theorem readsMember_blanks {t : List Char} {r : Except Thrown (TwValue F)} (reads : Reads t r)
    (before gap before' after : List Space) (name : List StringChar) :
    ReadsMember (blanks before ++ quotedText name ++ blanks gap ++ ':' :: (blanks before' ++ t ++ blanks after))
      (String.ofList (name.flatMap asRead)) r := by
  refine ⟨blanks before, name.flatMap StringChar.text, blanks gap, blanks before' ++ t ++ blanks after, ?_, blank_blanks before, ?_,
    blank_blanks gap, padded_blanks reads before' after⟩
  · simp [quotedText]
  · rw [String.toList_ofList]
    exact spells_text name

mutual

theorem reads_json : ∀ j : Json, Reads (F := F) j.text (read j)
  | .null => by
    rw [Json.text, read]
    exact reads_null
  | .bool b => by
    rw [Json.text, read]
    exact reads_bool b
  | .number n => by
    rw [Json.text, read]
    exact reads_numberText n
  | .string s => by
    rw [Json.text, read]
    exact reads_string (spells_text s)
  | .emptyArray ws => by
    rw [Json.text, read]
    exact reads_emptyArray (blank_blanks ws)
  | .array items => by
    rw [Json.text, read]
    exact reads_array (reads_items items)
  | .emptyObject ws => by
    rw [Json.text, read]
    exact reads_emptyObject (blank_blanks ws)
  | .object members => by
    rw [Json.text, read]
    exact reads_object (reads_members members)

theorem reads_items : ∀ items : Items, List.Forall₂ Padded items.texts (readItems (F := F) items)
  | .last before value after => by
    rw [Items.texts, readItems]
    exact .cons (padded_blanks (reads_json value) before after) .nil
  | .cons before value after items => by
    rw [Items.texts, readItems]
    exact .cons (padded_blanks (reads_json value) before after) (reads_items items)

theorem reads_members : ∀ members : Members,
    List.Forall₂ (fun t m => ReadsMember t m.1 m.2) members.texts (readMembers (F := F) members)
  | .last before name gap before' value after => by
    rw [Members.texts, readMembers]
    exact .cons (readsMember_blanks (reads_json value) before gap before' after name) .nil
  | .cons before name gap before' value after members => by
    rw [Members.texts, readMembers]
    exact .cons (readsMember_blanks (reads_json value) before gap before' after name) (reads_members members)

end

/-- The parser on a whole text. -/
theorem parseJsonStr_text (t : Text) : parseJsonStr (F := F) (String.ofList t.text) = read t.value :=
  (padded_blanks (reads_json t.value) t.before t.after).parseJsonStr_eq

/-! ### What a text denotes -/

mutual

/-- The value that a text of the grammar denotes; none for a number that is no integer of 64 bits and for a lone
    surrogate. The last of duplicate names wins. -/
def denote : Json → Option (TwValue F)
  | .null => some .nil
  | .bool b => some (.bool b)
  | .number n => n.integer.bind fun i =>
    if Int64.minValue.toInt ≤ i ∧ i ≤ Int64.maxValue.toInt then some (.int (Int64.ofInt i)) else none
  | .string s => (octets s).map fun cs => .string (String.ofList cs)
  | .emptyArray _ => some (.array [])
  | .array items => (denoteItems items).map .array
  | .emptyObject _ => some (.dict [])
  | .object members => (denoteMembers members).map fun kvs => .dict (setEntries kvs [])

/-- The elements that the text denotes. -/
def denoteItems : Items → Option (List (TwValue F))
  | .last _ value _ => (denote value).map fun v => [v]
  | .cons _ value _ items => (denote value).bind fun v => (denoteItems items).map (v :: ·)

/-- The members that the text denotes. -/
def denoteMembers : Members → Option (Dict F)
  | .last _ name _ _ value _ => (octets name).bind fun cs => (denote value).map fun v => [(String.ofList cs, v)]
  | .cons _ name _ _ value _ members => (octets name).bind fun cs => (denote value).bind fun v =>
    (denoteMembers members).map ((String.ofList cs, v) :: ·)

end

/-- An escape that the parser decodes, or none at all. -/
def PlainChar : StringChar → Prop
  | .unescaped _ _ => True
  | .short e => e ≠ .backspace ∧ e ≠ .formFeed
  | .unicode _ => False

/-- Every character is plain. -/
def PlainString (s : List StringChar) : Prop := ∀ u ∈ s, PlainChar u

mutual

/-- No string and no name of the text has an escape `\b`, `\f` or `\u`. -/
def PlainJson : Json → Prop
  | .string s => PlainString s
  | .array items => PlainItems items
  | .object members => PlainMembers members
  | _ => True

/-- The elements are plain. -/
def PlainItems : Items → Prop
  | .last _ value _ => PlainJson value
  | .cons _ value _ items => PlainJson value ∧ PlainItems items

/-- The members are plain. -/
def PlainMembers : Members → Prop
  | .last _ name _ _ value _ => PlainString name ∧ PlainJson value
  | .cons _ name _ _ value _ members => PlainString name ∧ PlainJson value ∧ PlainMembers members

end

/-! ### Plain texts -/

theorem unescape_letter {e : Escape} (plain : e ≠ .backspace ∧ e ≠ .formFeed) : unescape e.letter = e.char := by
  cases e with
  | backspace => exact absurd rfl plain.1
  | formFeed => exact absurd rfl plain.2
  | _ => rfl

theorem octets_plain {s : List StringChar} (plain : PlainString s) : octets s = some (s.flatMap asRead) := by
  induction s with
  | nil => rfl
  | cons u s ih =>
    obtain ⟨head, tail⟩ := List.forall_mem_cons.mp plain
    have rest := ih tail
    rw [octets] at rest ⊢
    obtain ⟨cs, decoded, same⟩ := Option.map_eq_some_iff.mp rest
    cases u with
    | unescaped c allowed =>
      rw [decode, decoded]
      simp [asRead, ← same]
    | short e =>
      rw [decode, decoded]
      simp [asRead, ← same, unescape_letter head, utf8_escape]
    | unicode q => exact absurd head id

/-- What is read is at least as long as what is denoted, and is the same only where every escape is decoded. -/
theorem decode_asRead (s : List StringChar) : ∀ ds, decode s = some ds →
    (ds.flatMap utf8).length ≤ (s.flatMap asRead).length ∧ (s.flatMap asRead = ds.flatMap utf8 → PlainString s) := by
  -- An escape with hexadecimal digits is read as more characters than it denotes octets.
  have longer {cs : List Char} {s : List StringChar} (more : cs.length < (s.flatMap asRead).length) :
      cs.length ≤ (s.flatMap asRead).length ∧ (s.flatMap asRead = cs → PlainString s) :=
    ⟨Nat.le_of_lt more, fun same => absurd (congrArg List.length same) (Nat.ne_of_gt more)⟩
  fun_induction decode s with
  | case1 =>
    intro ds decoded
    obtain rfl : [] = ds := Option.some.inj decoded
    exact ⟨Nat.le_refl _, fun _ _ mem => absurd mem List.not_mem_nil⟩
  | case2 c allowed s ih =>
    intro ds decoded
    obtain ⟨ds, decodedTail, rfl⟩ := Option.map_eq_some_iff.mp decoded
    obtain ⟨shorter, exact'⟩ := ih ds decodedTail
    simp only [List.flatMap_cons, asRead, List.length_append]
    refine ⟨by omega, fun same => ?_⟩
    exact List.forall_mem_cons.mpr ⟨trivial, exact' (List.append_cancel_left same)⟩
  | case3 e s ih =>
    intro ds decoded
    obtain ⟨ds, decodedTail, rfl⟩ := Option.map_eq_some_iff.mp decoded
    obtain ⟨shorter, exact'⟩ := ih ds decodedTail
    simp only [List.flatMap_cons, asRead, utf8_escape, List.singleton_append, List.length_cons]
    refine ⟨by omega, fun same => ?_⟩
    obtain ⟨head, tail⟩ := List.cons.inj same
    refine List.forall_mem_cons.mpr ⟨?_, exact' tail⟩
    constructor <;> rintro rfl <;> cases head
  | case4 q high r s low ih =>
    intro ds decoded
    obtain ⟨ds, decodedTail, rfl⟩ := Option.map_eq_some_iff.mp decoded
    have bound := length_utf8_le (Char.ofNat (0x10000 + (q.code - 0xD800) * 0x400 + (r.code - 0xDC00)))
    refine longer ?_
    have shorter := (ih ds decodedTail).1
    simp only [List.flatMap_cons, asRead, Quad.chars, List.length_append, List.length_cons, List.length_nil]
    omega
  | case5 q high r s low => exact fun ds decoded => nomatch decoded
  | case6 q s high alone => exact fun ds decoded => nomatch decoded
  | case7 q s high low => exact fun ds decoded => nomatch decoded
  | case8 q s high low ih =>
    intro ds decoded
    obtain ⟨ds, decodedTail, rfl⟩ := Option.map_eq_some_iff.mp decoded
    have bound := length_utf8_le_three (Nat.lt_of_le_of_lt (toNat_charOfNat_le q.code) q.code_lt)
    refine longer ?_
    have shorter := (ih ds decodedTail).1
    simp only [List.flatMap_cons, asRead, Quad.chars, List.length_append, List.length_cons, List.length_nil]
    omega

/-- The parser decodes a string exactly if it has no escape `\b`, `\f` or `\u`. -/
theorem octets_asRead {s : List StringChar} {cs : List Char} (denoted : octets s = some cs) :
    s.flatMap asRead = cs ↔ PlainString s := by
  constructor
  · obtain ⟨ds, decoded, rfl⟩ := Option.map_eq_some_iff.mp denoted
    exact (decode_asRead s ds decoded).2
  · intro plain
    rw [octets_plain plain] at denoted
    exact Option.some.inj denoted

mutual

theorem read_of_plain : ∀ {j : Json} {v : TwValue F}, denote j = some v → PlainJson j → read j = .ok v
  | .null, v, denoted, _ => by
    rw [denote] at denoted
    rw [read, Option.some.inj denoted]
  | .bool b, v, denoted, _ => by
    rw [denote] at denoted
    rw [read, Option.some.inj denoted]
  | .number n, v, denoted, _ => by
    rw [denote] at denoted
    obtain ⟨i, integer, ranged⟩ := Option.bind_eq_some_iff.mp denoted
    split at ranged
    · rename_i range
      rw [read, numberValue_integer integer range, Option.some.inj ranged]
    · cases ranged
  | .string s, v, denoted, plain => by
    rw [denote] at denoted
    obtain ⟨cs, decoded, rfl⟩ := Option.map_eq_some_iff.mp denoted
    rw [read, (octets_asRead decoded).mpr plain]
  | .emptyArray ws, v, denoted, _ => by
    rw [denote] at denoted
    rw [read, Option.some.inj denoted]
  | .array items, v, denoted, plain => by
    rw [denote] at denoted
    obtain ⟨vs, inner, rfl⟩ := Option.map_eq_some_iff.mp denoted
    rw [read, readItems_of_plain inner plain]
    rfl
  | .emptyObject ws, v, denoted, _ => by
    rw [denote] at denoted
    rw [read, Option.some.inj denoted]
  | .object members, v, denoted, plain => by
    rw [denote] at denoted
    obtain ⟨kvs, inner, rfl⟩ := Option.map_eq_some_iff.mp denoted
    rw [read, readMembers_of_plain inner plain]
    rfl

theorem readItems_of_plain : ∀ {items : Items} {vs : List (TwValue F)}, denoteItems items = some vs → PlainItems items →
    collect (readItems items) = .ok vs
  | .last before value after, vs, denoted, plain => by
    rw [denoteItems] at denoted
    obtain ⟨v, inner, rfl⟩ := Option.map_eq_some_iff.mp denoted
    rw [readItems, read_of_plain inner plain]
    rfl
  | .cons before value after items, vs, denoted, plain => by
    rw [denoteItems] at denoted
    obtain ⟨v, inner, rest⟩ := Option.bind_eq_some_iff.mp denoted
    obtain ⟨vs, innerTail, rfl⟩ := Option.map_eq_some_iff.mp rest
    rw [readItems, read_of_plain inner plain.1, collect, readItems_of_plain innerTail plain.2]
    rfl

theorem readMembers_of_plain : ∀ {members : Members} {kvs : Dict F}, denoteMembers members = some kvs →
    PlainMembers members → collect ((readMembers members).map named) = .ok kvs
  | .last before name gap before' value after, kvs, denoted, plain => by
    rw [denoteMembers] at denoted
    obtain ⟨cs, decoded, rest⟩ := Option.bind_eq_some_iff.mp denoted
    obtain ⟨v, inner, rfl⟩ := Option.map_eq_some_iff.mp rest
    rw [readMembers, (octets_asRead decoded).mpr plain.1, read_of_plain inner plain.2]
    rfl
  | .cons before name gap before' value after members, kvs, denoted, plain => by
    rw [denoteMembers] at denoted
    obtain ⟨cs, decoded, rest⟩ := Option.bind_eq_some_iff.mp denoted
    obtain ⟨v, inner, rest⟩ := Option.bind_eq_some_iff.mp rest
    obtain ⟨kvs, innerTail, rfl⟩ := Option.map_eq_some_iff.mp rest
    have tail := readMembers_of_plain innerTail plain.2.2
    rw [readMembers, (octets_asRead decoded).mpr plain.1, read_of_plain inner plain.2.1, List.map_cons, named_ok,
      collect, tail]
    rfl

end

/-! ### Texts with distinct names -/

mutual

/-- No object of the text has two names that denote the same string. -/
def UniqueNames : Json → Prop
  | .array items => UniqueNamesItems items
  | .object members => (members.names.map octets).Nodup ∧ UniqueNamesMembers members
  | _ => True

/-- Objects among the elements name no member twice. -/
def UniqueNamesItems : Items → Prop
  | .last _ value _ => UniqueNames value
  | .cons _ value _ items => UniqueNames value ∧ UniqueNamesItems items

/-- Objects among the members name no member twice. -/
def UniqueNamesMembers : Members → Prop
  | .last _ _ _ _ value _ => UniqueNames value
  | .cons _ _ _ _ value _ members => UniqueNames value ∧ UniqueNamesMembers members

end

theorem length_setEntries_le {α : Type} : ∀ kvs dict : List (String × α),
    (setEntries kvs dict).length ≤ dict.length + kvs.length
  | [], dict => by simp [setEntries]
  | (k, v) :: kvs, dict => by
    have rest := length_setEntries_le kvs (setEntry k v dict)
    rw [setEntries_cons]
    by_cases held : k ∈ dict.map Prod.fst
    · rw [length_setEntry_of_mem held] at rest
      rw [List.length_cons]
      omega
    · rw [setEntry_of_notMem held] at rest ⊢
      simp at rest ⊢
      omega

/-- Entries that are all kept have distinct names. -/
theorem setEntries_of_length {α : Type} : ∀ {kvs dict : List (String × α)},
    dict.length + kvs.length ≤ (setEntries kvs dict).length → setEntries kvs dict = dict ++ kvs
  | [], dict, _ => by simp [setEntries]
  | (k, v) :: kvs, dict, kept => by
    rw [setEntries_cons] at kept ⊢
    by_cases held : k ∈ dict.map Prod.fst
    · have rest := length_setEntries_le kvs (setEntry k v dict)
      rw [length_setEntry_of_mem held] at rest
      rw [List.length_cons] at kept
      omega
    · rw [setEntry_of_notMem held] at kept ⊢
      rw [setEntries_of_length (by simp at kept ⊢; omega), List.append_assoc]
      rfl

omit [Cxx F] in
theorem names_denoteMembers : ∀ {members : Members} {kvs : Dict F}, denoteMembers members = some kvs →
    members.names.map octets = (kvs.map Prod.fst).map fun k => some k.toList
  | .last before name gap before' value after, kvs, denoted => by
    rw [denoteMembers] at denoted
    obtain ⟨cs, decoded, rest⟩ := Option.bind_eq_some_iff.mp denoted
    obtain ⟨v, inner, rfl⟩ := Option.map_eq_some_iff.mp rest
    simp [Members.names, decoded]
  | .cons before name gap before' value after members, kvs, denoted => by
    rw [denoteMembers] at denoted
    obtain ⟨cs, decoded, rest⟩ := Option.bind_eq_some_iff.mp denoted
    obtain ⟨v, inner, rest⟩ := Option.bind_eq_some_iff.mp rest
    obtain ⟨kvs, innerTail, rfl⟩ := Option.map_eq_some_iff.mp rest
    rw [Members.names, List.map_cons, names_denoteMembers innerTail, decoded]
    simp

theorem length_readMembers : ∀ members : Members, (readMembers (F := F) members).length = members.names.length
  | .last before name gap before' value after => rfl
  | .cons before name gap before' value after members => by
    rw [readMembers, Members.names, List.length_cons, List.length_cons, length_readMembers members]

omit [Cxx F] in
/-- Where the names of an object are distinct and the same entries are kept, they were read as they are denoted. -/
theorem setEntries_inj {kvs read : Dict F} (nodup : (kvs.map Prod.fst).Nodup) (length : read.length = kvs.length)
    (same : setEntries read [] = setEntries kvs []) : read = kvs := by
  have denoted : setEntries kvs [] = kvs := setEntries_of_nodup nodup
  have kept : setEntries read [] = read := setEntries_of_length (by rw [same, denoted, length]; simp)
  rw [← kept, same, denoted]

mutual

theorem plain_of_read : ∀ {j : Json} {v : TwValue F}, denote j = some v → UniqueNames j → read j = .ok v → PlainJson j
  | .null, _, _, _, _ => trivial
  | .bool _, _, _, _, _ => trivial
  | .number _, _, _, _, _ => trivial
  | .emptyArray _, _, _, _, _ => trivial
  | .emptyObject _, _, _, _, _ => trivial
  | .string s, v, denoted, _, same => by
    rw [denote] at denoted
    obtain ⟨cs, decoded, rfl⟩ := Option.map_eq_some_iff.mp denoted
    rw [read] at same
    have text := TwValue.string.inj (Except.ok.inj same)
    exact (octets_asRead decoded).mp (String.ofList_injective text)
  | .array items, v, denoted, unique, same => by
    rw [denote] at denoted
    obtain ⟨vs, inner, rfl⟩ := Option.map_eq_some_iff.mp denoted
    rw [read] at same
    refine plainItems_of_read inner unique ?_
    cases collected : collect (readItems (F := F) items) with
    | error e => rw [collected] at same; cases same
    | ok vs' =>
      rw [collected] at same
      rw [TwValue.array.inj (Except.ok.inj same)]
  | .object members, v, denoted, unique, same => by
    rw [denote] at denoted
    obtain ⟨kvs, inner, rfl⟩ := Option.map_eq_some_iff.mp denoted
    rw [read] at same
    refine plainMembers_of_read inner unique.2 ?_
    cases collected : collect ((readMembers (F := F) members).map named) with
    | error e => rw [collected] at same; cases same
    | ok kvs' =>
      rw [collected] at same
      have names := names_denoteMembers inner
      have nodup : (kvs.map Prod.fst).Nodup := by
        have distinct := unique.1
        rw [names] at distinct
        exact distinct.of_map _
      have length : kvs'.length = kvs.length := by
        have counted := congrArg List.length names
        rw [length_collect collected, List.length_map, length_readMembers]
        simpa using counted
      rw [setEntries_inj nodup length (TwValue.dict.inj (Except.ok.inj same))]

theorem plainItems_of_read : ∀ {items : Items} {vs : List (TwValue F)}, denoteItems items = some vs → UniqueNamesItems items →
    collect (readItems items) = .ok vs → PlainItems items
  | .last before value after, vs, denoted, unique, same => by
    rw [denoteItems] at denoted
    obtain ⟨v, inner, rfl⟩ := Option.map_eq_some_iff.mp denoted
    rw [readItems] at same
    obtain ⟨w, ws, head, -, eq⟩ := collect_cons same
    rw [← (List.cons.inj eq).1] at head
    exact plain_of_read inner unique head
  | .cons before value after items, vs, denoted, unique, same => by
    rw [denoteItems] at denoted
    obtain ⟨v, inner, rest⟩ := Option.bind_eq_some_iff.mp denoted
    obtain ⟨vs, innerTail, rfl⟩ := Option.map_eq_some_iff.mp rest
    rw [readItems] at same
    obtain ⟨w, ws, head, tail, eq⟩ := collect_cons same
    obtain ⟨rfl, rfl⟩ := List.cons.inj eq
    exact ⟨plain_of_read inner unique.1 head, plainItems_of_read innerTail unique.2 tail⟩

theorem plainMembers_of_read : ∀ {members : Members} {kvs : Dict F}, denoteMembers members = some kvs →
    UniqueNamesMembers members → collect ((readMembers members).map named) = .ok kvs → PlainMembers members
  | .last before name gap before' value after, kvs, denoted, unique, same => by
    rw [denoteMembers] at denoted
    obtain ⟨cs, decoded, rest⟩ := Option.bind_eq_some_iff.mp denoted
    obtain ⟨v, inner, rfl⟩ := Option.map_eq_some_iff.mp rest
    rw [readMembers, List.map_cons] at same
    obtain ⟨entry, entries, head, -, eq⟩ := collect_cons same
    rw [← (List.cons.inj eq).1] at head
    obtain ⟨key, inside⟩ := named_eq_ok head
    exact ⟨(octets_asRead decoded).mp (String.ofList_injective key), plain_of_read inner unique inside⟩
  | .cons before name gap before' value after members, kvs, denoted, unique, same => by
    rw [denoteMembers] at denoted
    obtain ⟨cs, decoded, rest⟩ := Option.bind_eq_some_iff.mp denoted
    obtain ⟨v, inner, rest⟩ := Option.bind_eq_some_iff.mp rest
    obtain ⟨kvs, innerTail, rfl⟩ := Option.map_eq_some_iff.mp rest
    rw [readMembers, List.map_cons] at same
    obtain ⟨entry, entries, head, tail, eq⟩ := collect_cons same
    obtain ⟨rfl, rfl⟩ := List.cons.inj eq
    obtain ⟨key, inside⟩ := named_eq_ok head
    exact ⟨(octets_asRead decoded).mp (String.ofList_injective key), plain_of_read inner unique.1 inside,
      plainMembers_of_read innerTail unique.2 tail⟩

end

/-- A text is read as what it denotes if it has no escape `\b`, `\f` or `\u`; where the names of each object are
    distinct, only then. -/
theorem parseJsonStr_denote (t : Text) (v : TwValue F) (denoted : denote t.value = some v) :
    (PlainJson t.value → parseJsonStr (String.ofList t.text) = .ok v) ∧
      (UniqueNames t.value → (parseJsonStr (String.ofList t.text) = .ok v ↔ PlainJson t.value)) := by
  rw [parseJsonStr_text]
  have reads := read_of_plain denoted
  exact ⟨reads, fun unique => ⟨plain_of_read denoted unique, reads⟩⟩

/-- The text `{"name":"caf\u00e9"}` -/
def cafe : Text where
  before := []
  value :=
    let name := [.unescaped 'n' (by decide), .unescaped 'a' (by decide), .unescaped 'm' (by decide), .unescaped 'e' (by decide)]
    let accent := .unicode ⟨⟨0, false⟩, ⟨0, false⟩, ⟨14, false⟩, ⟨9, false⟩⟩
    let word := [.unescaped 'c' (by decide), .unescaped 'a' (by decide), .unescaped 'f' (by decide), accent]
    .object (.last [] name [] [] (.string word) [])
  after := []

/-- The escape is not decoded. -/
theorem parseJsonStr_cafe :
    String.ofList cafe.text = "\x7b\"name\":\"caf\\u00e9\"\x7d" ∧
      denote cafe.value = some (.dict [("name", .string (String.ofList ['c', 'a', 'f', '\xc3', '\xa9']))] : TwValue Int) ∧
      parseJsonStr (String.ofList cafe.text) = .ok (.dict [("name", .string "cafu00e9")] : TwValue Int) := by
  refine ⟨by decide +kernel, by rfl, ?_⟩
  rw [parseJsonStr_text]
  rfl

/-- The text ` ["\n", -7]` -/
def lineBreak : Text where
  before := [.space]
  value := .array (.cons [] (.string [.short .lineFeed]) []
    (.last [.space] (.number ⟨true, .digit ⟨7, by decide⟩, none, none⟩) []))
  after := []

theorem parseJsonStr_lineBreak :
    denote lineBreak.value = some (.array [.string "\n", .int (-7)] : TwValue Int) ∧ PlainJson lineBreak.value ∧
      parseJsonStr (String.ofList lineBreak.text) = .ok (.array [.string "\n", .int (-7)] : TwValue Int) := by
  have denoted : denote lineBreak.value = some (.array [.string "\n", .int (-7)] : TwValue Int) := by rfl
  have plain : PlainJson lineBreak.value := by
    refine ⟨fun u mem => ?_, trivial⟩
    rw [List.mem_singleton.mp mem]
    exact ⟨by decide, by decide⟩
  exact ⟨denoted, plain, (parseJsonStr_denote lineBreak _ denoted).1 plain⟩

end WeftWarp
