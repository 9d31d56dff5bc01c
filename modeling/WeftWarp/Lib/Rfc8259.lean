import Mathlib.Data.String.Basic
import Mathlib.Data.List.Basic

/-! The grammar of JSON texts (RFC 8259) as syntax trees.

    A tree holds what its text spells out: white space, the case of hexadecimal digits, the escapes that were chosen.
    `text` is the UTF-8 form of the text; a character below 256 stands for an octet. -/

namespace WeftWarp.Rfc8259

/-! ### Octets -/

/-- The character of a byte. -/
def octet (b : UInt8) : Char := .ofUInt8 b

/-- The UTF-8 form of a character. -/
def utf8 (c : Char) : List Char := (String.utf8EncodeChar c).map octet

theorem toNat_octet {n : Nat} (small : n < 256) : (octet (.ofNat n)).toNat = n := by
  have toNat (b : UInt8) : (octet b).toNat = b.toNat := UInt8.toNat_toUInt32 b
  rw [toNat, UInt8.toNat_ofNat_of_lt' small]

/-- A character is its own octet, or all its octets are above the ASCII range. -/
theorem mem_utf8 {o c : Char} (mem : o ∈ utf8 c) : o = c ∨ 128 ≤ o.toNat := by
  have eq : c.val.toNat = c.toNat := rfl
  simp only [utf8, String.utf8EncodeChar, eq] at mem
  split at mem
  · rename_i ascii
    rw [List.map_singleton, List.mem_singleton] at mem
    left
    apply Char.toNat_inj.mp
    rw [mem, toNat_octet (by omega)]
  · right
    repeat' split at mem
    all_goals
      simp only [List.map_cons, List.map_nil, List.mem_cons, List.not_mem_nil, or_false] at mem
      rcases mem with rfl | rfl | rfl | rfl
    all_goals
      rw [toNat_octet (by omega)]
      omega

theorem length_utf8_le (c : Char) : (utf8 c).length ≤ 4 := by
  rw [utf8, List.length_map, String.utf8EncodeChar]
  repeat' split
  all_goals simp

theorem length_utf8_le_three {c : Char} (basic : c.toNat < 0x10000) : (utf8 c).length ≤ 3 := by
  have eq : c.val.toNat = c.toNat := rfl
  simp only [utf8, List.length_map, String.utf8EncodeChar, eq]
  repeat' split
  all_goals first | omega | simp

/-! ### White space and digits -/

/-- `ws` of RFC 8259, character by character -/
inductive Space where
  | space
  | tab
  | lineFeed
  | carriageReturn

/-- The white space as a character. -/
def Space.char : Space → Char
  | .space => ' '
  | .tab => '\t'
  | .lineFeed => '\n'
  | .carriageReturn => '\r'

/-- White space as text. -/
def blanks (ws : List Space) : List Char := ws.map Space.char

/-- The character of a digit. -/
def digitChar (d : Fin 10) : Char := Nat.digitChar d

/-- The value of a row of digits. -/
def decimal (ds : List (Fin 10)) : Nat := ds.foldl (fun n d => 10 * n + d.val) 0

/-- A hexadecimal digit in one of its cases. -/
structure HexDigit where
  value : Fin 16
  upper : Bool

/-- The digit as it is written. -/
def HexDigit.char (h : HexDigit) : Char := if h.upper then (Nat.digitChar h.value).toUpper else Nat.digitChar h.value

/-- `4HEXDIG` -/
structure Quad where
  first : HexDigit
  second : HexDigit
  third : HexDigit
  fourth : HexDigit

/-- The four digits as they are written. -/
def Quad.chars (q : Quad) : List Char := [q.first.char, q.second.char, q.third.char, q.fourth.char]

/-- The code of four digits. -/
def Quad.code (q : Quad) : Nat :=
  ((q.first.value * 16 + q.second.value) * 16 + q.third.value) * 16 + q.fourth.value

theorem toNat_charOfNat_le (n : Nat) : (Char.ofNat n).toNat ≤ n := by
  by_cases valid : n.isValidChar
  · rw [Char.ofNat, dif_pos valid]
    exact Nat.le_of_eq rfl
  · rw [Char.ofNat, dif_neg valid]
    exact Nat.zero_le n

theorem Quad.code_lt (q : Quad) : q.code < 0x10000 := by
  obtain ⟨a, b, c, d⟩ := q
  have ha := a.value.isLt
  have hb := b.value.isLt
  have hc := c.value.isLt
  have hd := d.value.isLt
  simp only [Quad.code]
  omega

/-! ### Strings -/

/-- The escapes of one letter -/
inductive Escape where
  | quote
  | backslash
  | slash
  | backspace
  | formFeed
  | lineFeed
  | carriageReturn
  | tab
  deriving DecidableEq

/-- The letter behind the backslash. -/
def Escape.letter : Escape → Char
  | .quote => '"'
  | .backslash => '\\'
  | .slash => '/'
  | .backspace => 'b'
  | .formFeed => 'f'
  | .lineFeed => 'n'
  | .carriageReturn => 'r'
  | .tab => 't'

/-- The character that is meant. -/
def Escape.char : Escape → Char
  | .quote => '"'
  | .backslash => '\\'
  | .slash => '/'
  | .backspace => '\x08'
  | .formFeed => '\x0c'
  | .lineFeed => '\n'
  | .carriageReturn => '\r'
  | .tab => '\t'

theorem utf8_escape (e : Escape) : utf8 e.char = [e.char] := by
  cases e <;> decide

/-- `char` of RFC 8259 -/
inductive StringChar where
  | unescaped (c : Char) (allowed : 0x20 ≤ c.toNat ∧ c ≠ '"' ∧ c ≠ '\\')
  | short (e : Escape)
  | unicode (q : Quad)

/-- The character as it is written. -/
def StringChar.text : StringChar → List Char
  | .unescaped c _ => utf8 c
  | .short e => ['\\', e.letter]
  | .unicode q => '\\' :: 'u' :: q.chars

/-- The first half of a surrogate pair. -/
def isHigh (code : Nat) : Bool := 0xD800 ≤ code && code < 0xDC00

/-- The second half. -/
def isLow (code : Nat) : Bool := 0xDC00 ≤ code && code < 0xE000

/-- The characters that a string denotes; none where a surrogate stands alone. -/
def decode : List StringChar → Option (List Char)
  | [] => some []
  | .unescaped c _ :: s => (decode s).map (c :: ·)
  | .short e :: s => (decode s).map (e.char :: ·)
  | .unicode q :: s =>
    if isHigh q.code then
      match s with
      | .unicode r :: s =>
        if isLow r.code then
          (decode s).map (Char.ofNat (0x10000 + (q.code - 0xD800) * 0x400 + (r.code - 0xDC00)) :: ·)
        else none
      | _ => none
    else if isLow q.code then none
    else (decode s).map (Char.ofNat q.code :: ·)

/-- The octets that a string denotes. -/
def octets (s : List StringChar) : Option (List Char) := (decode s).map fun cs => cs.flatMap utf8

/-! ### Numbers -/

/-- `int` of RFC 8259: no leading zero -/
inductive IntPart where
  | zero
  | nonzero (first : Fin 10) (rest : List (Fin 10)) (positive : first ≠ 0)

/-- One digit, which may be zero. -/
def IntPart.digit (d : Fin 10) : IntPart := if nonzero : d = 0 then .zero else .nonzero d [] nonzero

/-- The digits as numbers. -/
def IntPart.digits : IntPart → List (Fin 10)
  | .zero => [0]
  | .nonzero first rest _ => first :: rest

/-- `1*DIGIT` -/
structure Digits1 where
  first : Fin 10
  rest : List (Fin 10)

/-- The digits as they are written. -/
def Digits1.chars (ds : Digits1) : List Char := (ds.first :: ds.rest).map digitChar

/-- The sign of an exponent, which can be left out. -/
inductive ExpSign where
  | none
  | plus
  | minus

/-- The sign as it is written. -/
def ExpSign.chars : ExpSign → List Char
  | .none => []
  | .plus => ['+']
  | .minus => ['-']

/-- `exp` of RFC 8259 -/
structure Exponent where
  upper : Bool
  sign : ExpSign
  digits : Digits1

/-- The exponent as it is written. -/
def Exponent.chars (e : Exponent) : List Char := (if e.upper then 'E' else 'e') :: e.sign.chars ++ e.digits.chars

/-- A number, part by part. -/
structure Number where
  minus : Bool
  int : IntPart
  frac : Option Digits1
  exp : Option Exponent

namespace Number

/-- Its sign as written. -/
def signChars (n : Number) : List Char := if n.minus then ['-'] else []

/-- Its integer part as written. -/
def intChars (n : Number) : List Char := n.int.digits.map digitChar

/-- Its fraction as written. -/
def fracChars (n : Number) : List Char := n.frac.elim [] fun ds => '.' :: ds.chars

/-- Its exponent as written. -/
def expChars (n : Number) : List Char := n.exp.elim [] Exponent.chars

theorem signChars_cases (n : Number) : n.signChars = [] ∨ n.signChars = ['-'] := by
  unfold signChars
  split
  · exact .inr rfl
  · exact .inl rfl

theorem intChars_ne_nil (n : Number) : n.intChars ≠ [] := by
  unfold intChars
  cases n.int <;> simp [IntPart.digits]

/-- The number as it is written. -/
def text (n : Number) : List Char := n.signChars ++ n.intChars ++ n.fracChars ++ n.expChars

/-- The integer that a number without fraction and exponent denotes. -/
def integer (n : Number) : Option Int :=
  match n.frac, n.exp with
  | none, none => some (if n.minus then -(decimal n.int.digits : Int) else decimal n.int.digits)
  | _, _ => none

end Number

/-! ### Values -/

mutual

/-- A value, with the white space inside it. -/
inductive Json where
  | null
  | bool (b : Bool)
  | number (n : Number)
  | string (s : List StringChar)
  | emptyArray (ws : List Space)
  | array (items : Items)
  | emptyObject (ws : List Space)
  | object (members : Members)

/-- `value *( value-separator value )`, with the white space around each value -/
inductive Items where
  | last (before : List Space) (value : Json) (after : List Space)
  | cons (before : List Space) (value : Json) (after : List Space) (items : Items)

/-- `member *( value-separator member )`, with the white space around names and values -/
inductive Members where
  | last (before : List Space) (name : List StringChar) (gap before' : List Space) (value : Json) (after : List Space)
  | cons (before : List Space) (name : List StringChar) (gap before' : List Space) (value : Json) (after : List Space)
      (members : Members)

end

/-- A name or a string with its quotation marks. -/
def quotedText (s : List StringChar) : List Char := '"' :: s.flatMap StringChar.text ++ ['"']

mutual

/-- The value as it is written. -/
def Json.text : Json → List Char
  | .null => "null".toList
  | .bool b => (if b then "true" else "false").toList
  | .number n => n.text
  | .string s => quotedText s
  | .emptyArray ws => '[' :: blanks ws ++ [']']
  | .array items => '[' :: [','].intercalate items.texts ++ [']']
  | .emptyObject ws => '\x7b' :: blanks ws ++ ['\x7d']
  | .object members => '\x7b' :: [','].intercalate members.texts ++ ['\x7d']

/-- The elements as they are written. -/
def Items.texts : Items → List (List Char)
  | .last before value after => [blanks before ++ value.text ++ blanks after]
  | .cons before value after items => (blanks before ++ value.text ++ blanks after) :: items.texts

/-- The members as they are written. -/
def Members.texts : Members → List (List Char)
  | .last before name gap before' value after =>
    [blanks before ++ quotedText name ++ blanks gap ++ ':' :: (blanks before' ++ value.text ++ blanks after)]
  | .cons before name gap before' value after members =>
    (blanks before ++ quotedText name ++ blanks gap ++ ':' :: (blanks before' ++ value.text ++ blanks after)) :: members.texts

end

/-- The names of the members. -/
def Members.names : Members → List (List StringChar)
  | .last _ name _ _ _ _ => [name]
  | .cons _ name _ _ _ _ members => name :: members.names

/-- `JSON-text = ws value ws` -/
structure Text where
  before : List Space
  value : Json
  after : List Space

/-- The text as it is written. -/
def Text.text (t : Text) : List Char := blanks t.before ++ t.value.text ++ blanks t.after

end WeftWarp.Rfc8259
