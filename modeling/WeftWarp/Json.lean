import WeftWarp.Value

/-! # JSON text

The serialiser and the recursive-descent parser of `tw_json.hpp`. The parser accepts any text: what it cannot
read becomes `nil`. Its only exception comes from `std::stod`. -/

namespace WeftWarp

namespace TwJson
variable {F : Type} [Cxx F]

/-! ### Serialiser -/

def escapeChar (c : Char) : List Char :=
  if c = '"' then ['\\', '"']
  else if c = '\\' then ['\\', '\\']
  else if c = '\n' then ['\\', 'n']
  else if c = '\r' then ['\\', 'r']
  else if c = '\t' then ['\\', 't']
  else [c]

def escapeString (s : String) : String := String.ofList ('"' :: s.toList.flatMap escapeChar ++ ['"'])

mutual

def toJson : TwValue F → String
  | .nil => "null"
  | .bool b => if b then "true" else "false"
  | .int i => toString i.toInt
  | .float f => Cxx.render f
  | .string s => escapeString s
  | .array xs => "[" ++ ",".intercalate (toJsons xs) ++ "]"
  | .dict kvs => "\x7b" ++ ",".intercalate (entryJsons kvs) ++ "\x7d"

def toJsons : List (TwValue F) → List String
  | [] => []
  | x :: xs => toJson x :: toJsons xs

def entryJsons : Dict F → List String
  | [] => []
  | (k, v) :: kvs => (escapeString k ++ ":" ++ toJson v) :: entryJsons kvs

end

/-! ### Parser -/

/-- The cursor `p` of the parser: the characters from it to `end`, and how far it stands behind `end`. -/
structure Cursor where
  rest : List Char
  past : Nat := 0
  deriving DecidableEq

/-- `++p`. -/
def Cursor.next (p : Cursor) : Cursor :=
  match p.rest with
  | [] => { p with past := p.past + 1 }
  | _ :: cs => { p with rest := cs }

/-- `p < end && *p == c`. -/
def Cursor.isAt (p : Cursor) (c : Char) : Bool := p.rest.head? == some c

/-- `std::isspace` in the "C" locale. -/
def isSpace (c : Char) : Bool :=
  c = ' ' || c = '\t' || c = '\n' || c = '\x0b' || c = '\x0c' || c = '\r'

def isDigit (c : Char) : Bool := '0' ≤ c && c ≤ '9'

def skipWs (p : Cursor) : Cursor := { p with rest := p.rest.dropWhile isSpace }

def unescape (c : Char) : Char :=
  if c = 'n' then '\n' else if c = 'r' then '\r' else if c = 't' then '\t' else c

/-- The loop of `parse_json_string`: the characters read, and the text from the closing quote on. -/
def readChars : List Char → List Char × List Char
  | [] => ([], [])
  | '\\' :: c :: cs =>
    let (s, rest) := readChars cs
    (unescape c :: s, rest)
  | c :: cs =>
    if c = '"' then ([], c :: cs)
    else
      let (s, rest) := readChars cs
      (c :: s, rest)

/-- `parse_json_string`. It steps over the opening quote without looking at it. -/
def parseJsonString (p : Cursor) : String × Cursor :=
  let p := p.next
  let (s, rest) := readChars p.rest
  (String.ofList s, { p with rest := rest.drop 1 })

/-- An exception that leaves the parser. -/
inductive Thrown where
  | stod
  deriving DecidableEq

def digitsValue (ds : List Char) : Nat := ds.foldl (fun n c => 10 * n + (c.toNat - '0'.toNat)) 0

/-- `std::stoll` on an optional sign and digits; `none` where it throws. -/
def stoll (tok : List Char) : Option Int64 :=
  let (neg, ds) := match tok with
    | '-' :: ds => (true, ds)
    | ds => (false, ds)
  if ds.isEmpty then none
  else
    let n : Int := if neg then -(digitsValue ds : Int) else digitsValue ds
    if Int64.minValue.toInt ≤ n ∧ n ≤ Int64.maxValue.toInt then some (Int64.ofInt n) else none

/-- The token that `parse_json_number` reads and whether it is a float. -/
def scanNumber (cs : List Char) : List Char × Bool × List Char :=
  let (sign, cs) := match cs with
    | '-' :: cs => (['-'], cs)
    | cs => ([], cs)
  let int := cs.takeWhile isDigit
  let cs := cs.dropWhile isDigit
  let (frac, cs) := match cs with
    | '.' :: cs => ('.' :: cs.takeWhile isDigit, cs.dropWhile isDigit)
    | cs => ([], cs)
  let (exp, cs) := match cs with
    | e :: cs =>
      if e = 'e' || e = 'E' then
        let (s, cs) := match cs with
          | c :: cs => if c = '+' || c = '-' then ([c], cs) else ([], c :: cs)
          | [] => ([], [])
        (e :: s ++ cs.takeWhile isDigit, cs.dropWhile isDigit)
      else ([], e :: cs)
    | [] => ([], [])
  (sign ++ int ++ frac ++ exp, !frac.isEmpty || !exp.isEmpty, cs)

/-- `TwValue(std::stod(tok))`. -/
def stodValue (tok : List Char) : Except Thrown (TwValue F) :=
  match Cxx.stod tok with
  | some f => .ok (.float f)
  | none => .error .stod

def parseJsonNumber (p : Cursor) : Except Thrown (TwValue F × Cursor) := do
  let (tok, isFloat, rest) := scanNumber p.rest
  let v ← if isFloat then stodValue tok
    else match stoll tok with
      | some i => .ok (.int i)
      | none => stodValue tok
  return (v, { p with rest })

mutual

/-- `parse_json`. The fuel bounds the calls; `parseJsonStr` passes enough for its text. -/
def parseJson : Nat → Cursor → Except Thrown (TwValue F × Cursor)
  | 0, p => .ok (.nil, p)
  | fuel + 1, p =>
    let p := skipWs p
    match p.rest with
    | [] => .ok (.nil, p)
    | c :: _ =>
      if c = '"' then
        let (s, p) := parseJsonString p
        .ok (.string s, p)
      else if c = '[' then
        let p := skipWs p.next
        if p.isAt ']' then .ok (.array [], p.next) else parseElements fuel p []
      else if c = '\x7b' then
        let p := skipWs p.next
        if p.isAt '\x7d' then .ok (.dict [], p.next) else parseMembers fuel p []
      else if c = '-' || isDigit c then parseJsonNumber p
      else if "true".toList.isPrefixOf p.rest then .ok (.bool true, { p with rest := p.rest.drop 4 })
      else if "false".toList.isPrefixOf p.rest then .ok (.bool false, { p with rest := p.rest.drop 5 })
      else if "null".toList.isPrefixOf p.rest then .ok (.nil, { p with rest := p.rest.drop 4 })
      else .ok (.nil, p.next)

def parseElements : Nat → Cursor → List (TwValue F) → Except Thrown (TwValue F × Cursor)
  | 0, p, arr => .ok (.array arr, p)
  | fuel + 1, p, arr =>
    if p.rest.isEmpty then .ok (.array arr, p)
    else
      match parseJson fuel p with
      | .error e => .error e
      | .ok (v, p) =>
        let arr := arr ++ [v]
        let p := skipWs p
        if p.isAt ',' then parseElements fuel p.next arr
        else if p.isAt ']' then .ok (.array arr, p.next)
        else .ok (.array arr, p)

def parseMembers : Nat → Cursor → Dict F → Except Thrown (TwValue F × Cursor)
  | 0, p, dict => .ok (.dict dict, p)
  | fuel + 1, p, dict =>
    if p.rest.isEmpty then .ok (.dict dict, p)
    else
      -- No quote is looked for: the key starts behind whatever character comes next.
      let (key, p) := parseJsonString (skipWs p)
      let p := skipWs p
      let p := if p.isAt ':' then p.next else p
      match parseJson fuel p with
      | .error e => .error e
      | .ok (v, p) =>
        let dict := setEntry key v dict
        let p := skipWs p
        if p.isAt ',' then parseMembers fuel p.next dict
        else if p.isAt '\x7d' then .ok (.dict dict, p.next)
        else .ok (.dict dict, p)

end

def parseJsonStr (json : String) : Except Thrown (TwValue F) :=
  (parseJson (2 * json.toList.length + 1) { rest := json.toList }).map Prod.fst

end TwJson
end WeftWarp
