import Mathlib.Data.List.TakeWhile
import WeftWarp.Domain
import WeftWarp.Theorems.JsonReads

/-! # Malformed texts

The parser throws only where a number does not convert, and it leaves its text only where white space follows a comma
of an object to the end. The texts on which neither happens are those of a lenient grammar. -/

namespace WeftWarp

open TwJson

/-! ### A lenient grammar -/

/-- What is read: a value, or the elements or members from some place on. -/
inductive Part where
  | value
  | elements
  | members

/-- The text without the white space at its start. -/
def trimmed (cs : List Char) : List Char := cs.dropWhile isSpace

/-- The text behind white space, and behind the mark if it comes next. -/
def overMark (c : Char) (cs : List Char) : List Char :=
  match trimmed cs with
  | [] => []
  | d :: ds => if d = c then ds else d :: ds

/-- The text behind a string whose first character is not looked at. -/
def behindString (cs : List Char) : List Char := (readChars cs).2.drop 1

/-- The text behind a string, a word, or a character that opens no value. -/
def behindPlain (c : Char) (cs : List Char) : List Char :=
  if c = '"' then behindString cs
  else if "true".toList.isPrefixOf (c :: cs) then cs.drop 3
  else if "false".toList.isPrefixOf (c :: cs) then cs.drop 4
  else if "null".toList.isPrefixOf (c :: cs) then cs.drop 3
  else cs

/-- The number at the start of the text is an integer of 64 bits or one that `std::stod` takes. -/
def Converts (F : Type) [Cxx F] (cs : List Char) : Prop :=
  ∃ v : TwValue F, numberValue (scanNumber cs).1 (scanNumber cs).2.1 = .ok v

/-- The part stands at the start of the first text, and the second one is left behind it. Colons and closing brackets may
    be missing, the text may end anywhere, and a name starts behind any character. But numbers convert, and where a member
    is read there is a character other than white space. -/
inductive Lenient (F : Type) [Cxx F] : Part → List Char → List Char → Prop where
  | ended {cs : List Char} (h : trimmed cs = []) : Lenient F .value cs []
  | plain {cs ds : List Char} {c : Char} (h : trimmed cs = c :: ds) (noArray : c ≠ '[') (noObject : c ≠ '\x7b')
      (noNumber : ¬ OpensNumber c) : Lenient F .value cs (behindPlain c ds)
  | number {cs ds : List Char} {c : Char} (h : trimmed cs = c :: ds) (opens : OpensNumber c)
      (converts : Converts F (c :: ds)) : Lenient F .value cs (scanNumber (c :: ds)).2.2
  | emptyArray {cs ds rest : List Char} (h : trimmed cs = '[' :: ds) (closed : trimmed ds = ']' :: rest) :
      Lenient F .value cs rest
  | array {cs ds rest : List Char} (h : trimmed cs = '[' :: ds) (inside : (trimmed ds).head? ≠ some ']')
      (hs : Lenient F .elements (trimmed ds) rest) : Lenient F .value cs rest
  | emptyObject {cs ds rest : List Char} (h : trimmed cs = '\x7b' :: ds) (closed : trimmed ds = '\x7d' :: rest) :
      Lenient F .value cs rest
  | object {cs ds rest : List Char} (h : trimmed cs = '\x7b' :: ds) (inside : (trimmed ds).head? ≠ some '\x7d')
      (hs : Lenient F .members (trimmed ds) rest) : Lenient F .value cs rest
  | noElement : Lenient F .elements [] []
  | lastElement {cs mid : List Char} (more : cs ≠ []) (hv : Lenient F .value cs mid)
      (last : (trimmed mid).head? ≠ some ',') : Lenient F .elements cs (overMark ']' mid)
  | element {cs mid ds rest : List Char} (more : cs ≠ []) (hv : Lenient F .value cs mid) (comma : trimmed mid = ',' :: ds)
      (hs : Lenient F .elements ds rest) : Lenient F .elements cs rest
  | noMember : Lenient F .members [] []
  | lastMember {cs ds mid : List Char} {c : Char} (h : trimmed cs = c :: ds)
      (hv : Lenient F .value (overMark ':' (behindString ds)) mid) (last : (trimmed mid).head? ≠ some ',') :
      Lenient F .members cs (overMark '\x7d' mid)
  | member {cs ds mid es rest : List Char} {c : Char} (h : trimmed cs = c :: ds)
      (hv : Lenient F .value (overMark ':' (behindString ds)) mid) (comma : trimmed mid = ',' :: es)
      (hs : Lenient F .members es rest) : Lenient F .members cs rest

/-! ### Lengths -/

theorem length_trimmed_le (cs : List Char) : (trimmed cs).length ≤ cs.length := (List.dropWhile_suffix isSpace).length_le

variable {c : Char} {cs : List Char}

theorem length_of_trimmed {ds : List Char} (h : trimmed cs = c :: ds) : ds.length < cs.length := by
  have shorter := length_trimmed_le cs
  rw [h] at shorter
  exact shorter

theorem solid_of_trimmed {ds : List Char} (h : trimmed cs = c :: ds) : isSpace c = false := by
  have head := List.head?_dropWhile_not isSpace cs
  rw [← trimmed, h] at head
  simpa using head

theorem length_overMark_le (c : Char) (cs : List Char) : (overMark c cs).length ≤ cs.length := by
  have shorter := length_trimmed_le cs
  rw [overMark]
  split
  · exact Nat.zero_le _
  · rename_i d ds eq
    rw [eq, List.length_cons] at shorter
    split
    · omega
    · exact shorter

theorem length_behindString_le (cs : List Char) : (behindString cs).length ≤ cs.length := by
  obtain ⟨front, eq, -⟩ := readChars_rest cs
  have total := congrArg List.length eq
  rw [List.length_append] at total
  rw [behindString, List.length_drop]
  omega

theorem length_behindPlain_le (c : Char) (cs : List Char) : (behindPlain c cs).length ≤ cs.length := by
  unfold behindPlain
  split
  · exact length_behindString_le cs
  · repeat' split
    all_goals simp

/-! ### Numbers -/

theorem scanSign_append (cs : List Char) : (scanSign cs).1 ++ (scanSign cs).2 = cs := by
  unfold scanSign
  split <;> rfl

theorem scanFraction_append (cs : List Char) : (scanFraction cs).1 ++ (scanFraction cs).2 = cs := by
  unfold scanFraction
  split
  · simp
  · rfl

theorem scanExponentSign_append (cs : List Char) : (scanExponentSign cs).1 ++ (scanExponentSign cs).2 = cs := by
  unfold scanExponentSign
  split
  · split <;> rfl
  · rfl

theorem scanExponent_append (cs : List Char) : (scanExponent cs).1 ++ (scanExponent cs).2 = cs := by
  cases cs with
  | nil => rfl
  | cons e cs =>
    rw [scanExponent]
    split
    · have sign := scanExponentSign_append cs
      simp only [List.append_assoc, List.takeWhile_append_dropWhile, List.cons_append, sign]
    · rfl

/-- The token of a number is what is left out of the text. -/
theorem scanNumber_append (cs : List Char) : (scanNumber cs).1 ++ (scanNumber cs).2.2 = cs := by
  rw [scanNumber_parts]
  simp only [List.append_assoc, scanExponent_append, scanFraction_append, List.takeWhile_append_dropWhile, scanSign_append]

theorem scanNumber_ne_nil (opens : OpensNumber c) (cs : List Char) : (scanNumber (c :: cs)).1 ≠ [] := by
  rw [scanNumber_parts]
  by_cases minus : c = '-'
  · subst minus
    simp [scanSign]
  · have digit : isDigit c = true := opens.resolve_left minus
    have unsigned : scanSign (c :: cs) = ([], c :: cs) := scanSign_eq (.inl rfl) fun ds eq => minus (List.cons.inj eq).1
    simp [unsigned, digit]

theorem length_scanNumber_le (opens : OpensNumber c) (cs : List Char) :
    (scanNumber (c :: cs)).2.2.length ≤ cs.length := by
  have total := congrArg List.length (scanNumber_append (c :: cs))
  have nonempty := List.length_pos_iff.mpr (scanNumber_ne_nil opens cs)
  rw [List.length_append, List.length_cons] at total
  omega

/-- The most that is left of a text of the length: a value takes a character, if there is one. -/
def Part.left : Part → Nat → Nat
  | .value, n => n - 1
  | .elements, n => n
  | .members, n => n

theorem Lenient.length {F : Type} [Cxx F] {part : Part} {rest : List Char} (h : Lenient F part cs rest) :
    rest.length ≤ part.left cs.length := by
  induction h with
  | ended => exact Nat.zero_le _
  | plain h =>
    have shorter := length_of_trimmed h
    exact Nat.le_trans (length_behindPlain_le _ _) (by rw [Part.left]; omega)
  | number h opens =>
    have shorter := length_of_trimmed h
    exact Nat.le_trans (length_scanNumber_le opens _) (by rw [Part.left]; omega)
  | @emptyArray _ ds _ h closed | @emptyObject _ ds _ h closed =>
    have shorter := length_of_trimmed h
    have shorter' := length_of_trimmed closed
    rw [Part.left]
    omega
  | @array _ ds _ h _ _ ih | @object _ ds _ h _ _ ih =>
    have shorter := length_of_trimmed h
    have shorter' := length_trimmed_le ds
    simp only [Part.left] at ih ⊢
    omega
  | noElement | noMember => exact Nat.le_refl _
  | @lastElement cs mid more hv _ ih =>
    have marked := length_overMark_le ']' mid
    simp only [Part.left] at ih ⊢
    omega
  | element more hv comma _ ih ih' =>
    have shorter := length_of_trimmed comma
    simp only [Part.left] at ih ih' ⊢
    omega
  | @lastMember cs ds mid c h _ _ ih =>
    have marked := length_overMark_le '\x7d' mid
    have colon := length_overMark_le ':' (behindString ds)
    have name := length_behindString_le ds
    have shorter := length_of_trimmed h
    simp only [Part.left] at ih ⊢
    omega
  | @member cs ds mid es rest c h _ comma _ ih ih' =>
    have colon := length_overMark_le ':' (behindString ds)
    have name := length_behindString_le ds
    have shorter := length_of_trimmed h
    have shorter' := length_of_trimmed comma
    simp only [Part.left] at ih ih' ⊢
    omega

/-! ### What a call does -/

section Calls
variable {F : Type} [Cxx F] {c : Char} {p : Cursor} {cs : List Char}

theorem isAt_cases (found : p.isAt c = true) : ∃ cs, p = ⟨c :: cs, p.past⟩ := by
  obtain ⟨rest, past⟩ := p
  cases rest with
  | nil => cases found
  | cons d cs =>
    obtain rfl : d = c := by simpa [Cursor.isAt] using found
    exact ⟨cs, rfl⟩

/-- White space is skipped, and the character behind it if it is the one. -/
def stepOver (c : Char) (q : Cursor) : Cursor := if (skipWs q).isAt c then (skipWs q).next else skipWs q

theorem stepOver_eq (c : Char) (cs : List Char) (past : Nat) : stepOver c ⟨cs, past⟩ = ⟨overMark c cs, past⟩ := by
  unfold stepOver overMark
  have skipped : skipWs ⟨cs, past⟩ = ⟨trimmed cs, past⟩ := rfl
  rw [skipped]
  cases trimmed cs with
  | nil => rfl
  | cons d ds => by_cases same : d = c <;> simp [Cursor.isAt, Cursor.next, same]

theorem parseJsonString_cons (c : Char) (cs : List Char) (past : Nat) :
    (parseJsonString ⟨c :: cs, past⟩).2 = ⟨behindString cs, past⟩ := rfl

theorem parseJson_trimmed {ds : List Char} (h : trimmed cs = c :: ds) (fuel past : Nat) :
    parseJson (F := F) (fuel + 1) ⟨cs, past⟩ = parseJson (fuel + 1) ⟨c :: ds, past⟩ := by
  have skipped : skipWs ⟨cs, past⟩ = ⟨c :: ds, past⟩ := by rw [skipWs, ← trimmed, h]
  rw [parseJson, parseJson, skipped, skipWs_cons (solid_of_trimmed h)]

theorem parseJson_ended (h : trimmed cs = []) (fuel past : Nat) :
    parseJson (F := F) (fuel + 1) ⟨cs, past⟩ = .ok (.nil, ⟨[], past⟩) := by
  have skipped : skipWs ⟨cs, past⟩ = ⟨[], past⟩ := by rw [skipWs, ← trimmed, h]
  rw [parseJson, skipped]

theorem parseJson_plain {c : Char} (solid : isSpace c = false) (noArray : c ≠ '[') (noObject : c ≠ '\x7b')
    (noNumber : ¬ OpensNumber c) (cs : List Char) :
    ∃ v, ∀ fuel past, parseJson (F := F) (fuel + 1) ⟨c :: cs, past⟩ = .ok (v, ⟨behindPlain c cs, past⟩) := by
  have number : (c = '-' || isDigit c) = false := by simpa [OpensNumber] using noNumber
  by_cases string : c = '"'
  · subst string
    refine ⟨.string (parseJsonString ⟨'"' :: cs, 0⟩).1, fun fuel past => ?_⟩
    rw [parseJson, skipWs_cons solid]
    simp only [if_true]
    rfl
  simp only [parseJson, skipWs_cons solid, string, noArray, noObject, number, if_false, Bool.false_eq_true, behindPlain]
  split
  · exact ⟨.bool true, fun _ _ => rfl⟩
  · split
    · exact ⟨.bool false, fun _ _ => rfl⟩
    · split <;> exact ⟨.nil, fun _ _ => rfl⟩

theorem parseJson_closed {d : Char} {rest : List Char} (brackets : c = '[' ∧ d = ']' ∨ c = '\x7b' ∧ d = '\x7d')
    (closed : trimmed cs = d :: rest) :
    ∃ v, ∀ fuel past, parseJson (F := F) (fuel + 1) ⟨c :: cs, past⟩ = .ok (v, ⟨rest, past⟩) := by
  have skipped (past : Nat) : skipWs ⟨cs, past⟩ = ⟨d :: rest, past⟩ := by rw [skipWs, ← trimmed, closed]
  rcases brackets with ⟨rfl, rfl⟩ | ⟨rfl, rfl⟩
  · refine ⟨.array [], fun fuel past => ?_⟩
    rw [parseJson, skipWs_cons rfl]
    simp [Cursor.next, Cursor.isAt, skipped]
  · refine ⟨.dict [], fun fuel past => ?_⟩
    rw [parseJson, skipWs_cons rfl]
    simp [Cursor.next, Cursor.isAt, skipped]

theorem isAt_false (other : (trimmed cs).head? ≠ some c) (past : Nat) : (skipWs ⟨cs, past⟩).isAt c = false := by
  have skipped : skipWs ⟨cs, past⟩ = ⟨trimmed cs, past⟩ := rfl
  rw [skipped, Cursor.isAt]
  simpa using other

theorem head_of_isAt {past : Nat} (other : (skipWs ⟨cs, past⟩).isAt c = false) : (trimmed cs).head? ≠ some c := by
  have skipped : skipWs ⟨cs, past⟩ = ⟨trimmed cs, past⟩ := rfl
  rw [skipped, Cursor.isAt] at other
  simpa using other

/-- At a character that is no white space a call reads a value of its own, or it hands on to one of the other functions. -/
theorem parseJson_cases (solid : isSpace c = false) (cs : List Char) (past : Nat) :
    (∃ v rest, (∀ (bs : List Char), trimmed bs = c :: cs → Lenient F .value bs rest) ∧
      ∀ fuel, parseJson (F := F) (fuel + 1) ⟨c :: cs, past⟩ = .ok (v, ⟨rest, past⟩)) ∨
    (OpensNumber c ∧ ∀ fuel, parseJson (F := F) (fuel + 1) ⟨c :: cs, past⟩ = parseJsonNumber ⟨c :: cs, past⟩) ∨
    (c = '[' ∧ (trimmed cs).head? ≠ some ']' ∧
      ∀ fuel, parseJson (F := F) (fuel + 1) ⟨c :: cs, past⟩ = parseElements fuel ⟨trimmed cs, past⟩ []) ∨
    (c = '\x7b' ∧ (trimmed cs).head? ≠ some '\x7d' ∧
      ∀ fuel, parseJson (F := F) (fuel + 1) ⟨c :: cs, past⟩ = parseMembers fuel ⟨trimmed cs, past⟩ []) := by
  have closes (d : Char) : (∃ rest, trimmed cs = d :: rest) ∨ (trimmed cs).head? ≠ some d := by
    cases trimmed cs with
    | nil => exact .inr (by simp)
    | cons e rest =>
      by_cases same : e = d
      · exact .inl ⟨rest, same ▸ rfl⟩
      · exact .inr (by simpa using same)
  by_cases array : c = '['
  · subst array
    rcases closes ']' with ⟨rest, closed⟩ | inside
    · obtain ⟨v, reads⟩ := parseJson_closed (F := F) (.inl ⟨rfl, rfl⟩) closed
      exact .inl ⟨v, rest, fun _ h => .emptyArray h closed, fun fuel => reads fuel past⟩
    · exact .inr (.inr (.inl ⟨rfl, inside, parseJson_array rfl (isAt_false inside past)⟩))
  by_cases object : c = '\x7b'
  · subst object
    rcases closes '\x7d' with ⟨rest, closed⟩ | inside
    · obtain ⟨v, reads⟩ := parseJson_closed (F := F) (.inr ⟨rfl, rfl⟩) closed
      exact .inl ⟨v, rest, fun _ h => .emptyObject h closed, fun fuel => reads fuel past⟩
    · exact .inr (.inr (.inr ⟨rfl, inside, parseJson_object rfl (isAt_false inside past)⟩))
  by_cases number : OpensNumber c
  · exact .inr (.inl ⟨number, fun fuel => parseJson_number number fuel cs past⟩)
  · obtain ⟨v, reads⟩ := parseJson_plain (F := F) solid array object number cs
    exact .inl ⟨v, _, fun _ h => .plain h array object number, fun fuel => reads fuel past⟩

theorem parseElements_round (fuel : Nat) (more : p.rest ≠ []) (arr : List (TwValue F)) :
    parseElements (fuel + 1) p arr = (parseJson fuel p).bind fun r =>
      if (skipWs r.2).isAt ',' then parseElements fuel (skipWs r.2).next (arr ++ [r.1])
      else .ok (.array (arr ++ [r.1]), stepOver ']' r.2) := by
  have nonempty : p.rest.isEmpty = false := by simpa using more
  rw [parseElements, nonempty]
  cases parseJson (F := F) fuel p with
  | error e => rfl
  | ok r =>
    simp only [Bool.false_eq_true, if_false, Except.bind, stepOver]
    split
    · rfl
    · split <;> rfl

theorem parseMembers_round (fuel : Nat) (more : p.rest ≠ []) (dict : Dict F) :
    parseMembers (fuel + 1) p dict = (parseJson fuel (stepOver ':' (parseJsonString (skipWs p)).2)).bind fun r =>
      if (skipWs r.2).isAt ',' then parseMembers fuel (skipWs r.2).next (setEntry (parseJsonString (skipWs p)).1 r.1 dict)
      else .ok (.dict (setEntry (parseJsonString (skipWs p)).1 r.1 dict), stepOver '\x7d' r.2) := by
  have nonempty : p.rest.isEmpty = false := by simpa using more
  have colon (q : Cursor) : (if (skipWs q).isAt ':' then (skipWs q).next else skipWs q) = stepOver ':' q := rfl
  rw [parseMembers, nonempty]
  simp only [Bool.false_eq_true, if_false, colon]
  cases parseJson (F := F) fuel (stepOver ':' (parseJsonString (skipWs p)).2) with
  | error e => rfl
  | ok r =>
    simp only [Except.bind, stepOver]
    split
    · rfl
    · split <;> rfl

end Calls

/-! ### The parser on lenient texts -/

section Completion
variable {F : Type} [Cxx F]

/-- With enough fuel the parser reads the part of the first text and leaves the second one. -/
def Parses (F : Type) [Cxx F] : Part → List Char → List Char → Prop
  | .value, cs, rest => ∃ v : TwValue F, ∀ fuel past, 2 * cs.length + 1 ≤ fuel →
    parseJson fuel ⟨cs, past⟩ = .ok (v, ⟨rest, past⟩)
  | .elements, cs, rest => ∀ arr : List (TwValue F), ∃ v, ∀ fuel past, 2 * cs.length + 2 ≤ fuel →
    parseElements fuel ⟨cs, past⟩ arr = .ok (v, ⟨rest, past⟩)
  | .members, cs, rest => ∀ dict : Dict F, ∃ v, ∀ fuel past, 2 * cs.length + 2 ≤ fuel →
    parseMembers fuel ⟨cs, past⟩ dict = .ok (v, ⟨rest, past⟩)

theorem Lenient.parses {part : Part} {cs rest : List Char} (h : Lenient F part cs rest) : Parses F part cs rest := by
  -- Every call is made with one unit of fuel less, on a text that is shorter where the call opens a loop.
  have positive {n fuel : Nat} (enough : n + 1 ≤ fuel) : ∃ k, fuel = k + 1 := ⟨fuel - 1, by omega⟩
  induction h with
  | ended h =>
    refine ⟨.nil, fun fuel past enough => ?_⟩
    obtain ⟨fuel, rfl⟩ := positive enough
    exact parseJson_ended h fuel past
  | @plain cs ds c h array object number =>
    obtain ⟨v, reads⟩ := parseJson_plain (F := F) (solid_of_trimmed h) array object number ds
    refine ⟨v, fun fuel past enough => ?_⟩
    obtain ⟨fuel, rfl⟩ := positive enough
    rw [parseJson_trimmed h, reads]
  | number h opens converts =>
    obtain ⟨v, converted⟩ := converts
    refine ⟨v, fun fuel past enough => ?_⟩
    obtain ⟨fuel, rfl⟩ := positive enough
    rw [parseJson_trimmed h, parseJson_number opens, parseJsonNumber_eq, converted]
    rfl
  | emptyArray h closed =>
    obtain ⟨v, reads⟩ := parseJson_closed (F := F) (.inl ⟨rfl, rfl⟩) closed
    refine ⟨v, fun fuel past enough => ?_⟩
    obtain ⟨fuel, rfl⟩ := positive enough
    rw [parseJson_trimmed h, reads]
  | emptyObject h closed =>
    obtain ⟨v, reads⟩ := parseJson_closed (F := F) (.inr ⟨rfl, rfl⟩) closed
    refine ⟨v, fun fuel past enough => ?_⟩
    obtain ⟨fuel, rfl⟩ := positive enough
    rw [parseJson_trimmed h, reads]
  | @array cs ds rest h inside _ ih =>
    obtain ⟨v, reads⟩ := ih []
    refine ⟨v, fun fuel past enough => ?_⟩
    obtain ⟨fuel, rfl⟩ := positive enough
    have shorter := length_of_trimmed h
    have shorter' := length_trimmed_le ds
    rw [parseJson_trimmed h, parseJson_array rfl (isAt_false inside past)]
    exact reads fuel past (by omega)
  | @object cs ds rest h inside _ ih =>
    obtain ⟨v, reads⟩ := ih []
    refine ⟨v, fun fuel past enough => ?_⟩
    obtain ⟨fuel, rfl⟩ := positive enough
    have shorter := length_of_trimmed h
    have shorter' := length_trimmed_le ds
    rw [parseJson_trimmed h, parseJson_object rfl (isAt_false inside past)]
    exact reads fuel past (by omega)
  | noElement =>
    intro arr
    refine ⟨.array arr, fun fuel past enough => ?_⟩
    obtain ⟨fuel, rfl⟩ := positive enough
    simp [parseElements]
  | noMember =>
    intro dict
    refine ⟨.dict dict, fun fuel past enough => ?_⟩
    obtain ⟨fuel, rfl⟩ := positive enough
    simp [parseMembers]
  | @lastElement cs mid more _ last ih =>
    intro arr
    obtain ⟨v, reads⟩ := ih
    refine ⟨.array (arr ++ [v]), fun fuel past enough => ?_⟩
    obtain ⟨fuel, rfl⟩ := positive enough
    rw [parseElements_round fuel more, reads fuel past (by omega)]
    simp only [Except.bind, isAt_false last past, Bool.false_eq_true, if_false, stepOver_eq]
  | @element cs mid ds rest more hv comma _ ih ih' =>
    intro arr
    obtain ⟨v, reads⟩ := ih
    obtain ⟨w, reads'⟩ := ih' (arr ++ [v])
    refine ⟨w, fun fuel past enough => ?_⟩
    obtain ⟨fuel, rfl⟩ := positive enough
    have used := hv.length
    have shorter := length_of_trimmed comma
    have skipped : skipWs ⟨mid, past⟩ = ⟨',' :: ds, past⟩ := by rw [skipWs, ← trimmed, comma]
    rw [parseElements_round fuel more, reads fuel past (by omega)]
    simp only [Except.bind, skipped, Cursor.isAt, List.head?_cons, beq_self_eq_true, if_true]
    exact reads' fuel past (by rw [Part.left] at used; omega)
  | @lastMember cs ds mid c h _ last ih =>
    intro dict
    obtain ⟨v, reads⟩ := ih
    refine ⟨.dict (setEntry (parseJsonString ⟨c :: ds, 0⟩).1 v dict), fun fuel past enough => ?_⟩
    obtain ⟨fuel, rfl⟩ := positive enough
    have shorter := length_of_trimmed h
    have name := length_behindString_le ds
    have colon := length_overMark_le ':' (behindString ds)
    have skipped : skipWs ⟨cs, past⟩ = ⟨c :: ds, past⟩ := by rw [skipWs, ← trimmed, h]
    have more : (⟨cs, past⟩ : Cursor).rest ≠ [] := List.ne_nil_of_length_pos (by dsimp only; omega)
    rw [parseMembers_round fuel more, skipped, parseJsonString_cons, stepOver_eq, reads fuel past (by omega)]
    simp only [Except.bind, isAt_false last past, Bool.false_eq_true, if_false, stepOver_eq]
    rfl
  | @member cs ds mid es rest c h hv comma _ ih ih' =>
    intro dict
    obtain ⟨v, reads⟩ := ih
    obtain ⟨w, reads'⟩ := ih' (setEntry (parseJsonString ⟨c :: ds, 0⟩).1 v dict)
    refine ⟨w, fun fuel past enough => ?_⟩
    obtain ⟨fuel, rfl⟩ := positive enough
    have used := hv.length
    have shorter := length_of_trimmed h
    have shorter' := length_of_trimmed comma
    have name := length_behindString_le ds
    have colon := length_overMark_le ':' (behindString ds)
    have skipped : skipWs ⟨cs, past⟩ = ⟨c :: ds, past⟩ := by rw [skipWs, ← trimmed, h]
    have skipped' : skipWs ⟨mid, past⟩ = ⟨',' :: es, past⟩ := by rw [skipWs, ← trimmed, comma]
    have more : (⟨cs, past⟩ : Cursor).rest ≠ [] := List.ne_nil_of_length_pos (by dsimp only; omega)
    rw [parseMembers_round fuel more, skipped, parseJsonString_cons, stepOver_eq, reads fuel past (by omega)]
    simp only [Except.bind, skipped', Cursor.isAt, List.head?_cons, beq_self_eq_true, if_true]
    exact reads' fuel past (by rw [Part.left] at used; omega)

end Completion

/-! ### Texts that are read to the end -/

section Soundness
variable {F : Type} [Cxx F]

theorem bind_eq_ok {α β : Type} {r : Except Thrown α} {f : α → Except Thrown β} {b : β} (read : r.bind f = .ok b) :
    ∃ a, r = .ok a ∧ f a = .ok b := by
  cases r with
  | error e => cases read
  | ok a => exact ⟨a, rfl, read⟩

/-- Behind a value the text has a comma, and the loop goes on behind it, or the loop ends. -/
theorem comma_cases (mid : List Char) (past : Nat) : (skipWs ⟨mid, past⟩).isAt ',' = false ∨
    ∃ ds, trimmed mid = ',' :: ds ∧ (skipWs ⟨mid, past⟩).isAt ',' = true ∧ (skipWs ⟨mid, past⟩).next = ⟨ds, past⟩ := by
  cases found : (skipWs ⟨mid, past⟩).isAt ',' with
  | false => exact .inl rfl
  | true =>
    obtain ⟨ds, eq⟩ := isAt_cases found
    have skipped : trimmed mid = ',' :: ds := congrArg Cursor.rest eq
    refine .inr ⟨ds, skipped, rfl, ?_⟩
    rw [eq]
    rfl

/-- The cursor has not come back, and if it is where it was, the text was a lenient one. -/
structure Ends (F : Type) [Cxx F] (part : Part) (enough : Prop) (cs : List Char) (past : Nat) (q : Cursor) : Prop where
  past_le : past ≤ q.past
  lenient : enough → q.past = past → Lenient F part cs q.rest

theorem parseJsonNumber_ends {bs cs : List Char} {c : Char} {past : Nat} {v : TwValue F} {q : Cursor} {enough : Prop}
    (h : trimmed bs = c :: cs) (opens : OpensNumber c) (read : parseJsonNumber ⟨c :: cs, past⟩ = .ok (v, q)) :
    Ends F .value enough bs past q := by
  rw [parseJsonNumber_eq] at read
  cases converted : numberValue (F := F) (scanNumber (c :: cs)).1 (scanNumber (c :: cs)).2.1 with
  | error e => simp only [converted] at read; cases read
  | ok v =>
    simp only [converted] at read
    cases read
    exact ⟨Nat.le_refl past, fun _ _ => .number h opens ⟨v, converted⟩⟩

mutual

theorem parseJson_ends : ∀ (fuel : Nat) {cs : List Char} {past : Nat} {v : TwValue F} {q : Cursor},
    parseJson fuel ⟨cs, past⟩ = .ok (v, q) → Ends F .value (2 * cs.length + 1 ≤ fuel) cs past q
  | 0, cs, past, v, q, read => by
    rw [parseJson] at read
    cases read
    exact ⟨Nat.le_refl past, fun enough => absurd enough (by omega)⟩
  | fuel + 1, bs, past, v, q, read => by
    cases h : trimmed bs with
    | nil =>
      rw [parseJson_ended h] at read
      cases read
      exact ⟨Nat.le_refl past, fun _ _ => .ended h⟩
    | cons c cs =>
      have shorter := length_of_trimmed h
      have shorter' := length_trimmed_le cs
      rw [parseJson_trimmed h] at read
      rcases parseJson_cases (F := F) (solid_of_trimmed h) cs past with
        ⟨w, rest, lenient, reads⟩ | ⟨opens, reads⟩ | ⟨rfl, inside, reads⟩ | ⟨rfl, inside, reads⟩
      · rw [reads] at read
        cases read
        exact ⟨Nat.le_refl past, fun _ _ => lenient bs h⟩
      · rw [reads] at read
        exact parseJsonNumber_ends h opens read
      · rw [reads] at read
        have inner := parseElements_ends fuel read
        exact ⟨inner.past_le, fun _ within => .array h inside (inner.lenient (by omega) within)⟩
      · rw [reads] at read
        have inner := parseMembers_ends fuel read
        exact ⟨inner.past_le, fun _ within => .object h inside (inner.lenient (by omega) within)⟩

theorem parseElements_ends : ∀ (fuel : Nat) {cs : List Char} {past : Nat} {arr : List (TwValue F)} {v : TwValue F}
    {q : Cursor}, parseElements fuel ⟨cs, past⟩ arr = .ok (v, q) →
      Ends F .elements (2 * cs.length + 2 ≤ fuel) cs past q
  | 0, cs, past, arr, v, q, read => by
    rw [parseElements] at read
    cases read
    exact ⟨Nat.le_refl past, fun enough => absurd enough (by omega)⟩
  | fuel + 1, cs, past, arr, v, q, read => by
    by_cases empty : cs = []
    · subst empty
      simp only [parseElements, List.isEmpty_nil, if_true] at read
      cases read
      exact ⟨Nat.le_refl past, fun _ _ => .noElement⟩
    rw [parseElements_round fuel empty] at read
    obtain ⟨⟨w, mid, past'⟩, value, round⟩ := bind_eq_ok read
    have front := parseJson_ends fuel value
    have ahead : past ≤ past' := front.past_le
    rcases comma_cases mid past' with last | ⟨ds, comma, found, next⟩
    · simp only [last, Bool.false_eq_true, if_false, stepOver_eq] at round
      cases round
      exact ⟨ahead, fun enough within => .lastElement empty (front.lenient (by omega) within) (head_of_isAt last)⟩
    · simp only [found, if_true, next] at round
      have back := parseElements_ends fuel round
      refine ⟨Nat.le_trans ahead back.past_le, fun enough within => ?_⟩
      obtain rfl : past' = past := Nat.le_antisymm (within ▸ back.past_le) ahead
      have element := front.lenient (by omega) rfl
      have used := element.length
      have shorter := length_of_trimmed comma
      simp only [Part.left] at used
      exact .element empty element comma (back.lenient (by omega) within)

theorem parseMembers_ends : ∀ (fuel : Nat) {cs : List Char} {past : Nat} {dict : Dict F}
    {v : TwValue F} {q : Cursor}, parseMembers fuel ⟨cs, past⟩ dict = .ok (v, q) →
      Ends F .members (2 * cs.length + 2 ≤ fuel) cs past q
  | 0, cs, past, dict, v, q, read => by
    rw [parseMembers] at read
    cases read
    exact ⟨Nat.le_refl past, fun enough => absurd enough (by omega)⟩
  | fuel + 1, cs, past, dict, v, q, read => by
    by_cases empty : cs = []
    · subst empty
      simp only [parseMembers, List.isEmpty_nil, if_true] at read
      cases read
      exact ⟨Nat.le_refl past, fun _ _ => .noMember⟩
    rw [parseMembers_round fuel empty] at read
    obtain ⟨⟨w, mid, past'⟩, value, round⟩ := bind_eq_ok read
    -- Behind the member the object ends, or the loop goes on behind a comma.
    obtain ⟨back, behind⟩ : past' ≤ q.past ∧
        ((trimmed mid).head? ≠ some ',' ∧ q.rest = overMark '\x7d' mid ∨ ∃ ds, trimmed mid = ',' :: ds ∧
          (2 * ds.length + 2 ≤ fuel → q.past = past' → Lenient F .members ds q.rest)) := by
      rcases comma_cases mid past' with last | ⟨ds, comma, found, next⟩
      · simp only [last, Bool.false_eq_true, if_false, stepOver_eq] at round
        cases round
        exact ⟨Nat.le_refl past', .inl ⟨head_of_isAt last, rfl⟩⟩
      · simp only [found, if_true, next] at round
        have rest := parseMembers_ends fuel round
        exact ⟨rest.past_le, .inr ⟨ds, comma, rest.lenient⟩⟩
    cases h : trimmed cs with
    | nil =>
      -- Nothing is left behind the white space, and the quote is stepped over beyond the end.
      have beyond : (parseJsonString (skipWs ⟨cs, past⟩)).2 = ⟨[], past + 1⟩ := by
        rw [skipWs, ← trimmed, h]
        rfl
      rw [beyond, stepOver_eq] at value
      have ahead : past + 1 ≤ past' := (parseJson_ends fuel value).past_le
      exact ⟨by omega, fun _ within => by omega⟩
    | cons c ds =>
      have skipped : skipWs ⟨cs, past⟩ = ⟨c :: ds, past⟩ := by rw [skipWs, ← trimmed, h]
      have shorter := length_of_trimmed h
      have name := length_behindString_le ds
      have colon := length_overMark_le ':' (behindString ds)
      rw [skipped, parseJsonString_cons, stepOver_eq] at value
      have front := parseJson_ends fuel value
      have ahead : past ≤ past' := front.past_le
      refine ⟨Nat.le_trans ahead back, fun enough within => ?_⟩
      obtain rfl : past' = past := Nat.le_antisymm (within ▸ back) ahead
      have member := front.lenient (by omega) rfl
      have used := member.length
      simp only [Part.left] at used
      rcases behind with ⟨last, rest⟩ | ⟨es, comma, lenient⟩
      · rw [rest]
        exact .lastMember h member last
      · have shorter' := length_of_trimmed comma
        exact .member h member comma (lenient (by omega) within)

end

end Soundness

/-! ### Robustness -/

/-- The cursor never comes back, so it was never beyond the end if it is not there in the end. The parser returns a value
    with the cursor in the text exactly on the texts of the lenient grammar. -/
theorem parseJsonStr_robust (F : Type) [Cxx F] :
    ((∀ fuel p q (v : TwValue F), parseJson fuel p = .ok (v, q) → p.past ≤ q.past) ∧
      (∀ fuel p q arr (v : TwValue F), parseElements fuel p arr = .ok (v, q) → p.past ≤ q.past) ∧
      ∀ fuel p q dict (v : TwValue F), parseMembers fuel p dict = .ok (v, q) → p.past ≤ q.past) ∧
    ∀ json : String, (∃ rest, Lenient F .value json.toList rest) ↔
      ∃ (v : TwValue F) (q : Cursor), parseJsonStr json = .ok v ∧
        (∀ fuel, 2 * json.toList.length + 1 ≤ fuel → parseJson fuel ⟨json.toList, 0⟩ = .ok (v, q)) ∧ q.past = 0 := by
  refine ⟨⟨?_, ?_, ?_⟩, fun json => ⟨?_, ?_⟩⟩
  · exact fun fuel _ _ _ read => (parseJson_ends fuel read).past_le
  · exact fun fuel _ _ _ _ read => (parseElements_ends fuel read).past_le
  · exact fun fuel _ _ _ _ read => (parseMembers_ends fuel read).past_le
  · rintro ⟨rest, lenient⟩
    obtain ⟨v, reads⟩ := lenient.parses
    refine ⟨v, ⟨rest, 0⟩, ?_, fun fuel enough => reads fuel 0 enough, rfl⟩
    rw [parseJsonStr, reads _ 0 (Nat.le_refl _)]
    rfl
  · rintro ⟨v, q, -, reads, within⟩
    exact ⟨q.rest, (parseJson_ends _ (reads _ (Nat.le_refl _))).lenient (Nat.le_refl _) within⟩

-- A truncated text, which ends in the middle of a word.
example : Lenient Int .value ['\x7b', '"', 'a', '"', ':', '[', 't', 'r', 'u'] ['r', 'u'] := by
  have opens : trimmed ['t', 'r', 'u'] = 't' :: ['r', 'u'] := rfl
  have word : Lenient Int .value ['t', 'r', 'u'] (behindPlain 't' ['r', 'u']) :=
    .plain opens (by decide) (by decide) (by decide)
  have elements : Lenient Int .elements ['t', 'r', 'u'] ['r', 'u'] := .lastElement (by decide) word (by decide)
  have array : Lenient Int .value ['[', 't', 'r', 'u'] ['r', 'u'] := .array rfl (by decide) elements
  have name : trimmed ['"', 'a', '"', ':', '[', 't', 'r', 'u'] = '"' :: ['a', '"', ':', '[', 't', 'r', 'u'] := rfl
  have members : Lenient Int .members ['"', 'a', '"', ':', '[', 't', 'r', 'u'] (overMark '\x7d' ['r', 'u']) :=
    .lastMember name array (by decide)
  exact .object rfl (by decide) members

/-- A state with an edge in its graph. -/
def guarded : TwState Int := { TwState.empty with rebacGraph := some (.addEdge .empty "alice" "door" "OWNS") }

/-- A number without digits throws, also where a goal tests its variable; behind the comma the cursor leaves the text. -/
theorem parseJsonStr_minus :
    parseJsonStr (F := Int) "\x7b\"type\":-\x7d" = .error .stod ∧
      (⟨"\x7b\"type\":-\x7d", "alice", .string "door"⟩ : TwGoalBinding Int).satisfied guarded = .error .stod ∧
      parseJson (F := Int) 17 ⟨"\x7b\"a\":1, ".toList, 0⟩ = .ok (.dict [("a", .int 1), ("", .nil)], ⟨[], 1⟩) := by
  refine ⟨?_, ?_, ?_⟩ <;> decide +kernel

end WeftWarp
