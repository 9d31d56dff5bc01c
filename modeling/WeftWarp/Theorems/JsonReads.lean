import WeftWarp.Json

/-! # What the parser reads

`Reads t r` says of a text that the parser takes it whole and answers `r`, whatever comes behind it. There is one rule
for each kind of value. -/

namespace WeftWarp

open TwJson

/-! ### White space -/

/-- Only white space. -/
def Blank (ws : List Char) : Prop := ∀ c ∈ ws, isSpace c = true

theorem blank_nil : Blank [] := fun _ mem => absurd mem List.not_mem_nil

theorem blank_space : Blank [' '] := by
  intro c mem
  rw [List.mem_singleton.mp mem]
  rfl

variable {ws t b s cs rest ds sign : List Char} {c : Char} {α : Type} {ts : List (List Char)} {k : String}

theorem skipWs_blank (blank : Blank ws) (cs : List Char) (past : Nat) :
    skipWs ⟨ws ++ cs, past⟩ = skipWs ⟨cs, past⟩ := by
  simp only [skipWs]
  rw [List.dropWhile_append_of_pos blank]

theorem skipWs_cons (solid : isSpace c = false) (cs : List Char) (past : Nat) :
    skipWs ⟨c :: cs, past⟩ = ⟨c :: cs, past⟩ := by
  simp [skipWs, solid]

/-- The first character of the text stays where it is when white space is skipped. -/
def Solid (t : List Char) : Prop := ∃ c cs, t = c :: cs ∧ isSpace c = false

theorem Solid.skipWs_eq (solid : Solid t) (rest : List Char) (past : Nat) :
    skipWs ⟨t ++ rest, past⟩ = ⟨t ++ rest, past⟩ := by
  obtain ⟨c, cs, rfl, notSpace⟩ := solid
  exact skipWs_cons notSpace (cs ++ rest) past

/-! ### Strings -/

/-- The body of a string literal and the characters it is read as. -/
inductive Spells : List Char → List Char → Prop
  | nil : Spells [] []
  | raw {c : Char} {b s : List Char} (notQuote : c ≠ '"') (notSlash : c ≠ '\\') (tail : Spells b s) :
      Spells (c :: b) (c :: s)
  | escape (c : Char) {b s : List Char} (tail : Spells b s) : Spells ('\\' :: c :: b) (unescape c :: s)

theorem Spells.append {b' s' : List Char} (front : Spells b s) (back : Spells b' s') :
    Spells (b ++ b') (s ++ s') := by
  induction front with
  | nil => exact back
  | raw notQuote notSlash _ ih => exact .raw notQuote notSlash ih
  | escape c _ ih => exact .escape c ih

theorem Spells.flatMap {text read : α → List Char} {l : List α} (each : ∀ a ∈ l, Spells (text a) (read a)) :
    Spells (l.flatMap text) (l.flatMap read) := by
  induction l with
  | nil => exact .nil
  | cons a l ih =>
    rw [List.flatMap_cons, List.flatMap_cons]
    exact (each a List.mem_cons_self).append (ih fun b mem => each b (List.mem_cons_of_mem a mem))

theorem spells_raw (raw : ∀ c ∈ cs, c ≠ '"' ∧ c ≠ '\\') : Spells cs cs := by
  induction cs with
  | nil => exact .nil
  | cons c cs ih =>
    obtain ⟨⟨notQuote, notSlash⟩, rest⟩ := List.forall_mem_cons.mp raw
    exact .raw notQuote notSlash (ih rest)

theorem readChars_raw (notQuote : c ≠ '"') (notSlash : c ≠ '\\') (cs : List Char) :
    readChars (c :: cs) = (c :: (readChars cs).1, (readChars cs).2) := by
  rw [readChars]
  · rw [if_neg notQuote]
  · rintro d ds rfl
    exact absurd rfl notSlash

/-- The loop over a string stops at a quote or at the end. -/
theorem readChars_rest (cs : List Char) : ∃ front, cs = front ++ (readChars cs).2 ∧
    ((readChars cs).2 = [] ∨ ∃ ds, (readChars cs).2 = '"' :: ds) := by
  fun_induction readChars cs with
  | case1 => exact ⟨[], rfl, .inl rfl⟩
  | case2 c cs s rest read ih =>
    rw [read] at ih
    obtain ⟨front, eq, stops⟩ := ih
    exact ⟨'\\' :: c :: front, by rw [eq]; rfl, stops⟩
  | case3 cs => exact ⟨[], rfl, .inr ⟨cs, rfl⟩⟩
  | case4 c cs escape notQuote s rest read ih =>
    rw [read] at ih
    obtain ⟨front, eq, stops⟩ := ih
    exact ⟨c :: front, by rw [eq]; rfl, stops⟩

theorem Spells.readChars_eq (spells : Spells b s) (rest : List Char) :
    readChars (b ++ '"' :: rest) = (s, '"' :: rest) := by
  induction spells with
  | nil => cases rest <;> simp [readChars]
  | raw notQuote notSlash _ ih => rw [List.cons_append, readChars_raw notQuote notSlash, ih]
  | escape c _ ih => rw [List.cons_append, List.cons_append, readChars, ih]

theorem parseJsonString_eq (spells : Spells b s) (rest : List Char) (past : Nat) :
    parseJsonString ⟨'"' :: b ++ '"' :: rest, past⟩ = (String.ofList s, ⟨rest, past⟩) := by
  simp only [parseJsonString, Cursor.next, List.cons_append, spells.readChars_eq, List.drop_one, List.tail_cons]

/-! ### Values -/

/-- Nothing behind a number is taken for a part of it. -/
def EndsNumber (rest : List Char) : Prop :=
  ∀ c, rest.head? = some c → isDigit c = false ∧ c ≠ '.' ∧ c ≠ 'e' ∧ c ≠ 'E'

variable {F : Type} [Cxx F]

/-- The parser takes the text and answers `r`. -/
structure Reads (t : List Char) (r : Except Thrown (TwValue F)) : Prop where
  opens : ∃ c cs, t = c :: cs ∧ isSpace c = false ∧ c ≠ ']'
  reads : ∀ fuel rest past, t.length ≤ fuel → EndsNumber rest →
    parseJson fuel ⟨t ++ rest, past⟩ = r.map fun v => (v, ⟨rest, past⟩)

/-- A text that is read, with white space around it. -/
def Padded (t : List Char) (r : Except Thrown (TwValue F)) : Prop :=
  ∃ before core after, t = before ++ core ++ after ∧ Blank before ∧ Blank after ∧ Reads core r

/-- A name, a colon and a value. -/
def ReadsMember (t : List Char) (k : String) (r : Except Thrown (TwValue F)) : Prop :=
  ∃ before body gap value, t = before ++ ('"' :: body ++ '"' :: (gap ++ ':' :: value)) ∧ Blank before ∧
    Spells body k.toList ∧ Blank gap ∧ Padded value r

theorem EndsNumber.blank (blank : Blank ws) (ends : EndsNumber rest) : EndsNumber (ws ++ rest) := by
  intro c head
  cases ws with
  | nil => exact ends c head
  | cons d ws =>
    obtain rfl : d = c := by simpa using head
    have space := blank d List.mem_cons_self
    refine ⟨?_, ?_, ?_, ?_⟩ <;> revert space
    · simp only [isSpace, isDigit, Bool.or_eq_true, decide_eq_true_eq]
      rintro (((((rfl | rfl) | rfl) | rfl) | rfl) | rfl) <;> rfl
    all_goals rintro space rfl; cases space

theorem endsNumber_cons (ends : isDigit c = false ∧ c ≠ '.' ∧ c ≠ 'e' ∧ c ≠ 'E') (rest : List Char) :
    EndsNumber (c :: rest) := by
  intro d head
  obtain rfl : c = d := by simpa using head
  exact ends

variable {fuel : Nat} {frac exp : List Char} {i : Int64}

theorem parseJson_blank (blank : Blank ws) (more : 0 < fuel) (cs : List Char) (past : Nat) :
    parseJson (F := F) fuel ⟨ws ++ cs, past⟩ = parseJson fuel ⟨cs, past⟩ := by
  obtain ⟨n, rfl⟩ : ∃ n, fuel = n + 1 := ⟨fuel - 1, by omega⟩
  rw [parseJson, parseJson, skipWs_blank blank]

section Rules
variable {t : List Char} {r : Except Thrown (TwValue F)}

theorem Reads.solid (reads : Reads t r) : Solid t := by
  obtain ⟨c, cs, eq, notSpace, -⟩ := reads.opens
  exact ⟨c, cs, eq, notSpace⟩

theorem Reads.padded (reads : Reads t r) : Padded t r :=
  ⟨[], t, [], by simp, blank_nil, blank_nil, reads⟩

theorem Padded.lead (blank : Blank ws) (padded : Padded t r) : Padded (ws ++ t) r := by
  obtain ⟨before, core, after, rfl, blankBefore, blankAfter, reads⟩ := padded
  refine ⟨ws ++ before, core, after, by simp, ?_, blankAfter, reads⟩
  exact fun c mem => (List.mem_append.mp mem).elim (blank c) (blankBefore c)

theorem Padded.parses (padded : Padded t r) : ∃ after, Blank after ∧ ∀ fuel rest past, t.length ≤ fuel → EndsNumber rest →
    parseJson fuel ⟨t ++ rest, past⟩ = r.map fun v => (v, ⟨after ++ rest, past⟩) := by
  obtain ⟨before, core, after, rfl, blankBefore, blankAfter, reads⟩ := padded
  refine ⟨after, blankAfter, ?_⟩
  intro fuel rest past bound ends
  have inside : 0 < core.length := by
    obtain ⟨c, cs, rfl, -⟩ := reads.opens
    simp
  simp only [List.length_append] at bound
  rw [List.append_assoc, List.append_assoc, parseJson_blank blankBefore (by omega)]
  exact reads.reads fuel (after ++ rest) past (by omega) (ends.blank blankAfter)

end Rules

theorem reads_string (spells : Spells b s) :
    Reads ('"' :: b ++ ['"']) (.ok (.string (String.ofList s) : TwValue F)) where
  opens := ⟨'"', b ++ ['"'], rfl, rfl, by decide⟩
  reads fuel rest past bound _ := by
    obtain ⟨n, rfl⟩ : ∃ n, fuel = n + 1 := ⟨fuel - 1, by simp at bound; omega⟩
    have text : '"' :: b ++ ['"'] ++ rest = '"' :: (b ++ '"' :: rest) := by simp
    have read := parseJsonString_eq spells rest past
    rw [List.cons_append] at read
    rw [text, parseJson, skipWs_cons (by rfl)]
    simp only [if_true, read, Except.map]

/-! ### Words and numbers -/

theorem reads_null : Reads "null".toList (.ok (.nil : TwValue F)) where
  opens := ⟨'n', "ull".toList, rfl, rfl, by decide⟩
  reads fuel rest past bound _ := by
    obtain ⟨n, rfl⟩ : ∃ n, fuel = n + 1 := ⟨fuel - 1, by simp at bound; omega⟩
    simp [parseJson, skipWs, isSpace, isDigit, Except.map]

theorem reads_bool (b : Bool) : Reads (if b then "true" else "false").toList (.ok (.bool b : TwValue F)) where
  opens := by
    cases b
    · exact ⟨'f', "alse".toList, rfl, rfl, by decide⟩
    · exact ⟨'t', "rue".toList, rfl, rfl, by decide⟩
  reads fuel rest past bound _ := by
    obtain ⟨n, rfl⟩ : ∃ n, fuel = n + 1 := ⟨fuel - 1, by cases b <;> simp at bound <;> omega⟩
    cases b <;> simp [parseJson, skipWs, isSpace, isDigit, Except.map]

/-- Only digits. -/
def Digits (ds : List Char) : Prop := ∀ c ∈ ds, isDigit c = true

/-- The fraction of a number, with its point. -/
def IsFraction (frac : List Char) : Prop := frac = [] ∨ ∃ ds, frac = '.' :: ds ∧ Digits ds

/-- The exponent of a number, with its letter. -/
def IsExponent (exp : List Char) : Prop :=
  exp = [] ∨ ∃ e sign ds, exp = e :: sign ++ ds ∧ (e = 'e' ∨ e = 'E') ∧ (sign = [] ∨ sign = ['+'] ∨ sign = ['-']) ∧
    ds ≠ [] ∧ Digits ds

/-- What `parse_json_number` makes of its token. -/
def numberValue (tok : List Char) (isFloat : Bool) : Except Thrown (TwValue F) :=
  if isFloat then stodValue tok
  else match stoll tok with
    | some i => .ok (.int i)
    | none => stodValue tok

theorem takeWhile_digits (digits : Digits ds) (ends : ∀ c, rest.head? = some c → isDigit c = false) :
    (ds ++ rest).takeWhile isDigit = ds ∧ (ds ++ rest).dropWhile isDigit = rest := by
  rw [List.takeWhile_append_of_pos digits, List.dropWhile_append_of_pos digits]
  cases rest with
  | nil => simp
  | cons c cs => simp [ends c rfl]

/-- The parts of `scanNumber`: what is taken and what is left. -/
def scanSign : List Char → List Char × List Char
  | '-' :: cs => (['-'], cs)
  | cs => ([], cs)

/-- A point and digits, and what is left. -/
def scanFraction : List Char → List Char × List Char
  | '.' :: cs => ('.' :: cs.takeWhile isDigit, cs.dropWhile isDigit)
  | cs => ([], cs)

/-- A sign, and what is left. -/
def scanExponentSign : List Char → List Char × List Char
  | c :: cs => if c = '+' || c = '-' then ([c], cs) else ([], c :: cs)
  | [] => ([], [])

/-- An exponent, and what is left. -/
def scanExponent : List Char → List Char × List Char
  | e :: cs =>
    if e = 'e' || e = 'E' then
      (e :: (scanExponentSign cs).1 ++ (scanExponentSign cs).2.takeWhile isDigit, (scanExponentSign cs).2.dropWhile isDigit)
    else ([], e :: cs)
  | [] => ([], [])

theorem scanNumber_parts (cs : List Char) :
    let sign := scanSign cs
    let frac := scanFraction (sign.2.dropWhile isDigit)
    let exp := scanExponent frac.2
    scanNumber cs = (sign.1 ++ sign.2.takeWhile isDigit ++ frac.1 ++ exp.1, !frac.1.isEmpty || !exp.1.isEmpty, exp.2) := by
  rfl

theorem scanSign_eq (isSign : sign = [] ∨ sign = ['-']) (unsigned : ∀ ds, cs ≠ '-' :: ds) :
    scanSign (sign ++ cs) = (sign, cs) := by
  rcases isSign with rfl | rfl
  · rw [List.nil_append, scanSign]
    exact unsigned
  · rfl

theorem scanFraction_eq (isFraction : IsFraction frac) (ends : ∀ c, rest.head? = some c → isDigit c = false ∧ c ≠ '.') :
    scanFraction (frac ++ rest) = (frac, rest) := by
  rcases isFraction with rfl | ⟨ds, rfl, digits⟩
  · rw [List.nil_append, scanFraction]
    rintro cs rfl
    exact (ends '.' rfl).2 rfl
  · obtain ⟨taken, left⟩ := takeWhile_digits digits fun c head => (ends c head).1
    rw [List.cons_append, scanFraction, taken, left]

theorem scanExponent_eq (isExponent : IsExponent exp) (ends : EndsNumber rest) :
    scanExponent (exp ++ rest) = (exp, rest) := by
  rcases isExponent with rfl | ⟨e, sign, ds, rfl, letter, isSign, nonempty, digits⟩
  · rw [List.nil_append]
    cases rest with
    | nil => rfl
    | cons c cs =>
      obtain ⟨-, -, lower, upper⟩ := ends c rfl
      simp [scanExponent, lower, upper]
  · obtain ⟨taken, left⟩ := takeWhile_digits digits fun c head => (ends c head).1
    have signed : scanExponentSign (sign ++ (ds ++ rest)) = (sign, ds ++ rest) := by
      rcases isSign with rfl | rfl | rfl
      · obtain ⟨d, ds, rfl⟩ := List.exists_cons_of_ne_nil nonempty
        have digit := digits d List.mem_cons_self
        have unsigned : ¬ (d = '+' ∨ d = '-') := by rintro (rfl | rfl) <;> cases digit
        simpa [scanExponentSign] using unsigned
      · rfl
      · rfl
    have isLetter : (e = 'e' || e = 'E') = true := by simpa using letter
    rw [List.cons_append, List.cons_append, List.append_assoc, scanExponent, if_pos isLetter, signed, taken, left]
    rfl

theorem IsExponent.head (isExponent : IsExponent exp) (ends : EndsNumber rest) (head : (exp ++ rest).head? = some c) :
    isDigit c = false ∧ c ≠ '.' := by
  rcases isExponent with rfl | ⟨e, sign, ds, rfl, letter, -⟩
  · exact ⟨(ends c head).1, (ends c head).2.1⟩
  · obtain rfl : e = c := by simpa using head
    rcases letter with rfl | rfl <;> exact ⟨rfl, by decide⟩

theorem IsFraction.head (isFraction : IsFraction frac) (ends : ∀ c, rest.head? = some c → isDigit c = false)
    (head : (frac ++ rest).head? = some c) : isDigit c = false := by
  rcases isFraction with rfl | ⟨ds, rfl, -⟩
  · exact ends c head
  · obtain rfl : '.' = c := by simpa using head
    rfl

/-- How a number begins. -/
def OpensNumber (c : Char) : Prop := c = '-' ∨ isDigit c = true

instance (c : Char) : Decidable (OpensNumber c) := inferInstanceAs (Decidable (c = '-' ∨ isDigit c = true))

theorem OpensNumber.ne {d : Char} (opens : OpensNumber c) (other : ¬ OpensNumber d) : c ≠ d := by
  rintro rfl
  exact other opens

theorem OpensNumber.solid (opens : OpensNumber c) : isSpace c = false := by
  cases space : isSpace c with
  | false => rfl
  | true =>
    simp only [isSpace, Bool.or_eq_true, decide_eq_true_eq] at space
    rcases space with ((((rfl | rfl) | rfl) | rfl) | rfl) | rfl <;> exact absurd opens (by decide)

theorem parseJson_number (opens : OpensNumber c) (n : Nat) (cs : List Char) (past : Nat) :
    parseJson (F := F) (n + 1) ⟨c :: cs, past⟩ = parseJsonNumber ⟨c :: cs, past⟩ := by
  have number : (c = '-' || isDigit c) = true := by simpa [OpensNumber] using opens
  rw [parseJson, skipWs_cons opens.solid]
  simp only [opens.ne (d := '"') (by decide), opens.ne (d := '[') (by decide), opens.ne (d := '\x7b') (by decide), number,
    if_false, if_true]

theorem parseJsonNumber_eq (p : Cursor) : parseJsonNumber (F := F) p =
    (numberValue (scanNumber p.rest).1 (scanNumber p.rest).2.1).map fun v => (v, { p with rest := (scanNumber p.rest).2.2 }) := by
  have bind {α β : Type} (r : Except Thrown α) (f : α → β) : (r >>= fun v => pure (f v)) = r.map f := by
    cases r <;> rfl
  unfold parseJsonNumber numberValue
  generalize scanNumber p.rest = scan
  obtain ⟨tok, isFloat, rest⟩ := scan
  cases isFloat
  · cases found : stoll tok with
    | none => simp only [found, Bool.false_eq_true, if_false, bind]
    | some i => simp only [found, Bool.false_eq_true, if_false, bind]
  · simp only [if_true, bind]

section Number
variable {sign int frac exp : List Char} (isSign : sign = [] ∨ sign = ['-']) (nonempty : int ≠ [])
  (digits : Digits int) (isFraction : IsFraction frac) (isExponent : IsExponent exp)
include isSign nonempty digits isFraction isExponent

theorem scanNumber_eq (ends : EndsNumber rest) : scanNumber (sign ++ int ++ frac ++ exp ++ rest) =
    (sign ++ int ++ frac ++ exp, !frac.isEmpty || !exp.isEmpty, rest) := by
  have afterInt := takeWhile_digits digits fun c =>
    isFraction.head fun c head => (isExponent.head ends head).1
  have unsigned : ∀ ds, int ++ (frac ++ (exp ++ rest)) ≠ '-' :: ds := by
    obtain ⟨d, ds, rfl⟩ := List.exists_cons_of_ne_nil nonempty
    rintro ds' eq
    have digit := digits d List.mem_cons_self
    rw [(List.cons.inj eq).1] at digit
    cases digit
  simp only [List.append_assoc]
  rw [scanNumber_parts]
  simp only [scanSign_eq isSign unsigned, afterInt, scanFraction_eq isFraction fun c => isExponent.head ends,
    scanExponent_eq isExponent ends, List.append_assoc]

omit isFraction isExponent in
theorem opens_number : ∃ c cs, sign ++ int = c :: cs ∧ OpensNumber c := by
  rcases isSign with rfl | rfl
  · obtain ⟨d, ds, rfl⟩ := List.exists_cons_of_ne_nil nonempty
    exact ⟨d, ds, rfl, .inr (digits d List.mem_cons_self)⟩
  · exact ⟨'-', int, rfl, .inl rfl⟩

theorem reads_number : Reads (F := F) (sign ++ int ++ frac ++ exp)
    (numberValue (sign ++ int ++ frac ++ exp) (!frac.isEmpty || !exp.isEmpty)) where
  opens := by
    obtain ⟨c, cs, eq, opens⟩ := opens_number isSign nonempty digits
    exact ⟨c, cs ++ frac ++ exp, by rw [eq]; rfl, opens.solid, opens.ne (by decide)⟩
  reads fuel rest past bound ends := by
    have scan := scanNumber_eq isSign nonempty digits isFraction isExponent ends
    obtain ⟨c, cs, eq, opens⟩ := opens_number isSign nonempty digits
    obtain ⟨n, rfl⟩ : ∃ n, fuel = n + 1 := by
      rw [eq] at bound
      exact ⟨fuel - 1, by simp at bound; omega⟩
    have number : parseJson (F := F) (n + 1) ⟨sign ++ int ++ frac ++ exp ++ rest, past⟩ =
        parseJsonNumber ⟨sign ++ int ++ frac ++ exp ++ rest, past⟩ := by
      rw [eq]
      exact parseJson_number opens n (cs ++ frac ++ exp ++ rest) past
    rw [number, parseJsonNumber_eq, scan]

end Number

/-- The value of a sign and digits. -/
def signedValue (sign ds : List Char) : Int := if sign = [] then digitsValue ds else -(digitsValue ds : Int)

theorem stoll_eq (isSign : sign = [] ∨ sign = ['-']) (nonempty : ds ≠ []) (digits : Digits ds)
    (value : signedValue sign ds = i.toInt) : stoll (sign ++ ds) = some i := by
  have range : Int64.minValue.toInt ≤ i.toInt ∧ i.toInt ≤ Int64.maxValue.toInt := ⟨i.minValue_le_toInt, i.toInt_le⟩
  obtain ⟨d, ds, rfl⟩ := List.exists_cons_of_ne_nil nonempty
  rcases isSign with rfl | rfl
  · have unsigned : d ≠ '-' := by
      rintro rfl
      cases digits '-' List.mem_cons_self
    have value : (digitsValue (d :: ds) : Int) = i.toInt := value
    rw [List.nil_append, stoll]
    · simp only [List.isEmpty_cons, Bool.false_eq_true, if_false, value, range, and_self, if_true, Int64.ofInt_toInt]
    · exact fun ds' eq => unsigned (List.cons.inj eq).1
  · have value : -(digitsValue (d :: ds) : Int) = i.toInt := value
    rw [List.singleton_append, stoll]
    simp only [List.isEmpty_cons, Bool.false_eq_true, if_false, if_true, value, range, and_self, Int64.ofInt_toInt]

theorem reads_integer (isSign : sign = [] ∨ sign = ['-']) (nonempty : ds ≠ []) (digits : Digits ds)
    (value : signedValue sign ds = i.toInt) : Reads (sign ++ ds) (.ok (.int i : TwValue F)) := by
  have reads := reads_number (F := F) isSign nonempty digits (.inl rfl) (.inl rfl)
  simp only [List.append_nil] at reads
  have number : numberValue (F := F) (sign ++ ds) false = .ok (.int i) := by
    rw [numberValue, stoll_eq isSign nonempty digits value]
    rfl
  rwa [← number]

/-! ### Arrays -/

/-- The values read one after the other, or the first exception. -/
def collect {α : Type} : List (Except Thrown α) → Except Thrown (List α)
  | [] => .ok []
  | .error e :: _ => .error e
  | .ok v :: rs => (collect rs).map (v :: ·)

theorem collect_ok (vs : List α) : collect (vs.map .ok) = .ok vs := by
  induction vs with
  | nil => rfl
  | cons v vs ih => rw [List.map_cons, collect, ih]; rfl

variable {vs : List α} {v : α}

theorem collect_cons {r : Except Thrown α} {rs : List (Except Thrown α)} (collected : collect (r :: rs) = .ok vs) :
    ∃ v vs', r = .ok v ∧ collect rs = .ok vs' ∧ vs = v :: vs' := by
  cases r with
  | error e => cases collected
  | ok v =>
    rw [collect] at collected
    cases rest : collect rs with
    | error e => rw [rest] at collected; cases collected
    | ok vs' =>
      rw [rest] at collected
      exact ⟨v, vs', rfl, rfl, (Except.ok.inj collected).symm⟩

theorem length_collect {rs : List (Except Thrown α)} (collected : collect rs = .ok vs) : vs.length = rs.length := by
  induction rs generalizing vs with
  | nil =>
    rw [← Except.ok.inj collected]
    rfl
  | cons r rs ih =>
    obtain ⟨v, vs', -, rest, rfl⟩ := collect_cons collected
    rw [List.length_cons, List.length_cons, ih rest]

theorem reads_emptyArray (blank : Blank ws) : Reads ('[' :: ws ++ [']']) (.ok (.array [] : TwValue F)) where
  opens := ⟨'[', ws ++ [']'], rfl, rfl, by decide⟩
  reads fuel rest past bound _ := by
    obtain ⟨n, rfl⟩ : ∃ n, fuel = n + 1 := ⟨fuel - 1, by simp at bound; omega⟩
    have text : '[' :: ws ++ [']'] ++ rest = '[' :: (ws ++ ']' :: rest) := by simp
    rw [text, parseJson, skipWs_cons (by rfl)]
    simp [Cursor.next, skipWs_blank blank, skipWs_cons, isSpace, Cursor.isAt, Except.map]

/-- One round of the loop over the elements. -/
theorem Padded.round {t : List Char} {r : Except Thrown (TwValue F)} (padded : Padded t r) {fuel : Nat}
    (bound : t.length ≤ fuel) {c : Char} (sep : c = ',' ∨ c = ']') (cs : List Char) (past : Nat) (arr : List (TwValue F)) :
    parseElements (fuel + 1) ⟨t ++ c :: cs, past⟩ arr = r.bind fun v =>
      if c = ',' then parseElements fuel ⟨cs, past⟩ (arr ++ [v]) else .ok (.array (arr ++ [v]), ⟨cs, past⟩) := by
  obtain ⟨after, blankAfter, parses⟩ := padded.parses
  have ends : EndsNumber (c :: cs) := endsNumber_cons (by rcases sep with rfl | rfl <;> decide) cs
  have more : (t ++ c :: cs).isEmpty = false := by simp
  rw [parseElements, more, parses fuel (c :: cs) past bound ends]
  cases r with
  | error e => rfl
  | ok v =>
    rcases sep with rfl | rfl <;>
      simp [Except.map, Except.bind, Cursor.isAt, Cursor.next, skipWs_blank blankAfter, skipWs_cons, isSpace]

variable {rs : List (Except Thrown (TwValue F))} {ms : List (String × Except Thrown (TwValue F))}

theorem parseElements_intercalate (padded : List.Forall₂ Padded ts rs) (nonempty : ts ≠ []) (fuel : Nat)
    (bound : ([','].intercalate ts).length < fuel) (arr : List (TwValue F)) (rest : List Char) (past : Nat) :
    parseElements fuel ⟨[','].intercalate ts ++ ']' :: rest, past⟩ arr =
      (collect rs).map fun vs => (.array (arr ++ vs), ⟨rest, past⟩) := by
  induction padded generalizing fuel arr with
  | nil => exact absurd rfl nonempty
  | @cons t r ts rs head tail ih =>
    obtain ⟨n, rfl⟩ : ∃ n, fuel = n + 1 := ⟨fuel - 1, by omega⟩
    cases ts with
    | nil =>
      cases tail
      rw [List.intercalate_singleton] at bound ⊢
      rw [head.round (by omega) (.inr rfl)]
      cases r <;> rfl
    | cons t' ts =>
      rw [List.intercalate_cons_cons] at bound ⊢
      simp only [List.length_append, List.length_cons, List.length_nil] at bound
      have text : t ++ [','] ++ [','].intercalate (t' :: ts) ++ ']' :: rest =
          t ++ ',' :: ([','].intercalate (t' :: ts) ++ ']' :: rest) := by simp
      rw [text, head.round (by omega) (.inl rfl)]
      cases r with
      | error e => rfl
      | ok v =>
        have loop := ih (by simp) n (by omega) (arr ++ [v])
        refine loop.trans ?_
        rw [collect]
        cases collect rs <;> simp [Except.map]

theorem intercalate_comma (t : List Char) (ts : List (List Char)) :
    [','].intercalate (t :: ts) = t ++ ts.flatMap (',' :: ·) := by
  induction ts generalizing t with
  | nil => simp
  | cons u ts ih => rw [List.intercalate_cons_cons, ih, List.flatMap_cons]; simp

variable {r : Except Thrown (TwValue F)}

theorem Padded.strip (padded : Padded t r) :
    ∃ t', Padded t' r ∧ t'.length ≤ t.length ∧
      ∀ cs past, skipWs ⟨t ++ cs, past⟩ = ⟨t' ++ cs, past⟩ ∧ (⟨t' ++ cs, past⟩ : Cursor).isAt ']' = false := by
  obtain ⟨before, core, after, rfl, blankBefore, blankAfter, reads⟩ := padded
  refine ⟨core ++ after, ⟨[], core, after, by simp, blank_nil, blankAfter, reads⟩, by simp, ?_⟩
  intro cs past
  rw [List.append_assoc, List.append_assoc, skipWs_blank blankBefore, reads.solid.skipWs_eq, List.append_assoc]
  obtain ⟨c, cs, rfl, -, notBracket⟩ := reads.opens
  exact ⟨rfl, by simpa [Cursor.isAt] using notBracket⟩

theorem parseJson_array {cs : List Char} {past : Nat} {p : Cursor} (skip : skipWs ⟨cs, past⟩ = p) (inside : p.isAt ']' = false)
    (fuel : Nat) : parseJson (F := F) (fuel + 1) ⟨'[' :: cs, past⟩ = parseElements fuel p [] := by
  rw [parseJson, skipWs_cons (by rfl)]
  simp [Cursor.next, skip, inside]

theorem reads_array (padded : List.Forall₂ Padded ts rs) :
    Reads ('[' :: [','].intercalate ts ++ [']']) ((collect rs).map .array) := by
  cases padded with
  | nil => exact reads_emptyArray blank_nil
  | @cons t r ts rs head tail =>
    refine ⟨⟨'[', [','].intercalate (t :: ts) ++ [']'], rfl, rfl, by decide⟩, ?_⟩
    intro fuel rest past bound _
    obtain ⟨n, rfl⟩ : ∃ n, fuel = n + 1 := ⟨fuel - 1, by simp at bound; omega⟩
    obtain ⟨t', head', shorter, strip⟩ := head.strip
    have text : '[' :: [','].intercalate (t :: ts) ++ [']'] ++ rest = '[' :: (t ++ (ts.flatMap (',' :: ·) ++ ']' :: rest)) := by
      simp [intercalate_comma]
    have loop := parseElements_intercalate (.cons head' tail) (by simp) n (by simp [intercalate_comma] at bound ⊢; omega) [] rest past
    rw [intercalate_comma, List.append_assoc] at loop
    obtain ⟨skip, inside⟩ := strip (ts.flatMap (',' :: ·) ++ ']' :: rest) past
    rw [text, parseJson_array skip inside, loop]
    cases collect (r :: rs) <;> simp [Except.map]

/-! ### Objects -/

/-- The entries written one after the other: a later one replaces an earlier one of its name. -/
def setEntries {α : Type} (kvs dict : List (String × α)) : List (String × α) :=
  kvs.foldl (fun dict kv => setEntry kv.1 kv.2 dict) dict

theorem setEntries_cons (k : String) (v : α) (kvs dict : List (String × α)) :
    setEntries ((k, v) :: kvs) dict = setEntries kvs (setEntry k v dict) := rfl

theorem setEntry_of_notMem {dict : List (String × α)} (fresh : k ∉ dict.map Prod.fst) :
    setEntry k v dict = dict ++ [(k, v)] := by
  have written : setEntry k v (dict ++ []) = dict ++ [(k, v)] := setEntry_append_of_notMem fresh
  rwa [List.append_nil] at written

theorem setEntries_of_nodup : ∀ {kvs dict : List (String × α)}, ((dict ++ kvs).map Prod.fst).Nodup →
    setEntries kvs dict = dict ++ kvs
  | [], dict, _ => by simp [setEntries]
  | (k, v) :: kvs, dict, nodup => by
    have fresh : k ∉ dict.map Prod.fst := by
      rw [List.map_append, List.nodup_append] at nodup
      exact fun mem => nodup.2.2 k mem k List.mem_cons_self rfl
    have rest : setEntries kvs (dict ++ [(k, v)]) = dict ++ [(k, v)] ++ kvs := setEntries_of_nodup (by simpa using nodup)
    rw [setEntries_cons, setEntry_of_notMem fresh, rest, List.append_assoc]
    rfl

/-- A member as it is read: an exception of its value is one of the member. -/
def named {α : Type} (m : String × Except Thrown α) : Except Thrown (String × α) := m.2.map (m.1, ·)

theorem named_ok (k : String) (v : α) : named (k, .ok v) = .ok (k, v) := rfl

theorem named_eq_ok {k' : String} {r : Except Thrown α} (read : named (k, r) = .ok (k', v)) : k = k' ∧ r = .ok v := by
  cases r with
  | error e => cases read
  | ok w =>
    obtain ⟨key, value⟩ := Prod.mk.inj (Except.ok.inj read)
    exact ⟨key, congrArg Except.ok value⟩

/-- One round of the loop over the members. -/
theorem ReadsMember.round (member : ReadsMember t k r) (bound : t.length ≤ fuel) (sep : c = ',' ∨ c = '\x7d')
    (cs : List Char) (past : Nat) (dict : Dict F) :
    parseMembers (fuel + 1) ⟨t ++ c :: cs, past⟩ dict = r.bind fun v =>
      if c = ',' then parseMembers fuel ⟨cs, past⟩ (setEntry k v dict) else .ok (.dict (setEntry k v dict), ⟨cs, past⟩) := by
  obtain ⟨before, body, gap, value, rfl, blankBefore, spells, blankGap, padded⟩ := member
  obtain ⟨after, blankAfter, parses⟩ := padded.parses
  have ends : EndsNumber (c :: cs) := endsNumber_cons (by rcases sep with rfl | rfl <;> decide) cs
  have text : before ++ ('"' :: body ++ '"' :: (gap ++ ':' :: value)) ++ c :: cs =
      before ++ ('"' :: body ++ '"' :: (gap ++ ':' :: (value ++ c :: cs))) := by simp
  have name := parseJsonString_eq spells (gap ++ ':' :: (value ++ c :: cs)) past
  have colon : skipWs ⟨gap ++ ':' :: (value ++ c :: cs), past⟩ = ⟨':' :: (value ++ c :: cs), past⟩ := by
    rw [skipWs_blank blankGap, skipWs_cons (by rfl)]
  have quote : skipWs ⟨before ++ ('"' :: body ++ '"' :: (gap ++ ':' :: (value ++ c :: cs))), past⟩ =
      ⟨'"' :: body ++ '"' :: (gap ++ ':' :: (value ++ c :: cs)), past⟩ := by
    rw [skipWs_blank blankBefore, List.cons_append, skipWs_cons (by rfl)]
  have more : (before ++ ('"' :: body ++ '"' :: (gap ++ ':' :: (value ++ c :: cs)))).isEmpty = false := by simp
  rw [text, parseMembers, more, quote, name]
  simp only [colon]
  simp only [Cursor.isAt, Cursor.next, List.head?_cons, beq_self_eq_true, if_true]
  rw [parses fuel (c :: cs) past (by simp at bound; omega) ends]
  cases r with
  | error e => rfl
  | ok v =>
    rcases sep with rfl | rfl <;>
      simp [Except.map, Except.bind, skipWs_blank blankAfter, skipWs_cons, isSpace, String.ofList_toList]

theorem parseMembers_intercalate (members : List.Forall₂ (fun t m => ReadsMember t m.1 m.2) ts ms)
    (nonempty : ts ≠ []) (fuel : Nat) (bound : ([','].intercalate ts).length < fuel)
    (dict : Dict F) (rest : List Char) (past : Nat) :
    parseMembers fuel ⟨[','].intercalate ts ++ '\x7d' :: rest, past⟩ dict =
      (collect (ms.map named)).map fun kvs => (.dict (setEntries kvs dict), ⟨rest, past⟩) := by
  induction members generalizing fuel dict with
  | nil => exact absurd rfl nonempty
  | @cons t m ts ms head tail ih =>
    obtain ⟨n, rfl⟩ : ∃ n, fuel = n + 1 := ⟨fuel - 1, by omega⟩
    obtain ⟨k, r⟩ := m
    cases ts with
    | nil =>
      cases tail
      rw [List.intercalate_singleton] at bound ⊢
      rw [head.round (by omega) (.inr rfl)]
      cases r <;> rfl
    | cons t' ts =>
      rw [List.intercalate_cons_cons] at bound ⊢
      simp only [List.length_append, List.length_cons, List.length_nil] at bound
      have text : t ++ [','] ++ [','].intercalate (t' :: ts) ++ '\x7d' :: rest =
          t ++ ',' :: ([','].intercalate (t' :: ts) ++ '\x7d' :: rest) := by simp
      rw [text, head.round (by omega) (.inl rfl)]
      cases r with
      | error e => rfl
      | ok v =>
        have loop := ih (by simp) n (by omega) (setEntry k v dict)
        refine loop.trans ?_
        rw [List.map_cons, named_ok, collect]
        cases collect (ms.map named) <;> rfl

theorem reads_emptyObject (blank : Blank ws) : Reads ('\x7b' :: ws ++ ['\x7d']) (.ok (.dict [] : TwValue F)) where
  opens := ⟨'\x7b', ws ++ ['\x7d'], rfl, rfl, by decide⟩
  reads fuel rest past bound _ := by
    obtain ⟨n, rfl⟩ : ∃ n, fuel = n + 1 := ⟨fuel - 1, by simp at bound; omega⟩
    have text : '\x7b' :: ws ++ ['\x7d'] ++ rest = '\x7b' :: (ws ++ '\x7d' :: rest) := by simp
    rw [text, parseJson, skipWs_cons (by rfl)]
    simp [Cursor.next, skipWs_blank blank, skipWs_cons, isSpace, Cursor.isAt, Except.map]

theorem ReadsMember.strip (member : ReadsMember t k r) :
    ∃ t', ReadsMember t' k r ∧ t'.length ≤ t.length ∧ ∀ cs past,
      skipWs ⟨t ++ cs, past⟩ = ⟨t' ++ cs, past⟩ ∧ (⟨t' ++ cs, past⟩ : Cursor).isAt '\x7d' = false := by
  obtain ⟨before, body, gap, value, rfl, blankBefore, spells, blankGap, padded⟩ := member
  refine ⟨'"' :: body ++ '"' :: (gap ++ ':' :: value), ⟨[], body, gap, value, rfl, blank_nil, spells, blankGap, padded⟩, by simp, ?_⟩
  intro cs past
  rw [List.append_assoc, skipWs_blank blankBefore]
  exact ⟨skipWs_cons (by rfl) _ past, rfl⟩

theorem parseJson_object {past : Nat} {p : Cursor} (skip : skipWs ⟨cs, past⟩ = p) (inside : p.isAt '\x7d' = false)
    (fuel : Nat) : parseJson (F := F) (fuel + 1) ⟨'\x7b' :: cs, past⟩ = parseMembers fuel p [] := by
  rw [parseJson, skipWs_cons (by rfl)]
  simp [Cursor.next, skip, inside]

theorem reads_object (members : List.Forall₂ (fun t m => ReadsMember t m.1 m.2) ts ms) :
    Reads ('\x7b' :: [','].intercalate ts ++ ['\x7d']) ((collect (ms.map named)).map fun kvs => .dict (setEntries kvs [])) := by
  cases members with
  | nil => exact reads_emptyObject blank_nil
  | @cons t m ts ms head tail =>
    refine ⟨⟨'\x7b', [','].intercalate (t :: ts) ++ ['\x7d'], rfl, rfl, by decide⟩, ?_⟩
    intro fuel rest past bound _
    obtain ⟨n, rfl⟩ : ∃ n, fuel = n + 1 := ⟨fuel - 1, by simp at bound; omega⟩
    obtain ⟨t', head', shorter, strip⟩ := head.strip
    have text : '\x7b' :: [','].intercalate (t :: ts) ++ ['\x7d'] ++ rest =
        '\x7b' :: (t ++ (ts.flatMap (',' :: ·) ++ '\x7d' :: rest)) := by simp [intercalate_comma]
    have loop := parseMembers_intercalate (.cons head' tail) (by simp) n (by simp [intercalate_comma] at bound ⊢; omega) [] rest past
    rw [intercalate_comma, List.append_assoc] at loop
    obtain ⟨skip, inside⟩ := strip (ts.flatMap (',' :: ·) ++ '\x7d' :: rest) past
    rw [text, parseJson_object skip inside, loop]
    cases collect ((m :: ms).map named) <;> rfl

/-! ### Whole texts -/

theorem Padded.parseJsonStr_eq (padded : Padded t r) : parseJsonStr (String.ofList t) = r := by
  obtain ⟨after, -, parses⟩ := padded.parses
  have parsed := parses (2 * t.length + 1) [] 0 (by omega) (fun c head => nomatch head)
  rw [List.append_nil] at parsed
  rw [parseJsonStr, String.toList_ofList, parsed]
  cases r <;> rfl

end WeftWarp
