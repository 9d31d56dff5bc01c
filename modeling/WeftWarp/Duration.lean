import Mathlib.Algebra.Group.Nat.Defs
import Mathlib.Data.List.Basic

/-! # Durations

The two readers of ISO 8601 durations: `tw_parse_duration_ms` of `tw_temporal.hpp`, and the module
`Taskweft.Iso8601Duration` it has to match. A text is the list of its characters: the C++ loop looks at bytes, but
those of a character outside ASCII are neither digits nor units, and both readers stop at the first of them. -/

namespace WeftWarp

/-- `c - '0'` -/
def digitValue (c : Char) : Nat :=
  c.toNat - '0'.toNat

def startsWithDigit : List Char → Bool
  | c :: _ => c.isDigit
  | [] => false

/-! ## `tw_parse_duration_ms` -/

namespace TwDuration

def msY : Int64 := 365 * 86400 * 1000
def msMo : Int64 := 30 * 86400 * 1000
def msW : Int64 := 7 * 86400 * 1000
def msD : Int64 := 86400 * 1000
def msH : Int64 := 3600 * 1000
def msMi : Int64 := 60 * 1000
def msS : Int64 := 1000

/-- The variables of the loop, apart from the place in the text. -/
structure Scan where
  totalMs : Int64 := 0
  inTime : Bool := false
  sawT : Bool := false
  fracSeen : Bool := false
  sawW : Bool := false
  sawAny : Bool := false
  lastRank : Int := -1
  deriving DecidableEq

/-- The digits of a number, read into an `int64_t`. -/
def readDigits (digits : List Char) : Int64 :=
  digits.foldl (fun whole c => whole * 10 + Int64.ofNat (digitValue c)) 0

/-- The first three digits of a fraction, padded with zeros. -/
def fracMilli (digits : List Char) : Int64 :=
  Nat.repeat (· * 10) (3 - (digits.take 3).length) (readDigits (digits.take 3))

/-- What follows the integer part of a number: the fraction, if there is one, and the rest of the text. -/
def readFraction : List Char → Option (Option Int64 × List Char)
  | '.' :: rest =>
    if !startsWithDigit rest then none
    -- the digits after the third are skipped
    else some (some (fracMilli (rest.takeWhile Char.isDigit)), rest.dropWhile Char.isDigit)
  | rest => some (none, rest)

/-- The rank and the milliseconds of a unit on its side of the `T`. -/
def classify (inTime : Bool) (unitC : Char) : Option (Int × Int64) :=
  if !inTime then
    if unitC = 'Y' then some (0, msY)
    else if unitC = 'M' then some (1, msMo)
    else if unitC = 'W' then some (99, msW)
    else if unitC = 'D' then some (2, msD)
    else none
  else
    if unitC = 'H' then some (3, msH)
    else if unitC = 'M' then some (4, msMi)
    else if unitC = 'S' then some (5, msS)
    else none

/-- The loop's variables after the number `whole` with the fraction `frac` and the unit `unitC`. -/
def Scan.add (s : Scan) (whole : Int64) (frac : Option Int64) (unitC : Char) : Option Scan :=
  match classify s.inTime unitC with
  | none => none
  | some (rank, unitMs) =>
    if unitC = 'W' ∧ (s.sawAny ∨ s.inTime) then none
    else if s.sawW then none
    else if rank ≠ 99 ∧ rank ≤ s.lastRank then none
    else
      let totalMs := s.totalMs + whole * unitMs
      some { s with
        sawW := unitC == 'W'
        lastRank := if rank = 99 then s.lastRank else rank
        totalMs := match frac with
          | none => totalMs
          | some milli => totalMs + milli * (unitMs / 1000)
        fracSeen := frac.isSome
        sawAny := true }

/-- A number and its unit, at the first digit. -/
def readPart (s : Scan) (dur : List Char) : Option (Scan × List Char) :=
  match readFraction (dur.dropWhile Char.isDigit) with
  | none => none
  | some (_, []) => none
  | some (frac, unitC :: rest) =>
    (s.add (readDigits (dur.takeWhile Char.isDigit)) frac unitC).map (·, rest)

/-- One turn of the loop on a text that is not at its end; `none` is a return of -1. -/
def turn (s : Scan) (dur : List Char) : Option (Scan × List Char) :=
  if s.fracSeen then none
  else match dur with
  | [] => none
  | 'T' :: rest =>
    if s.sawT then none
    else if rest.isEmpty then none
    else some ({ s with sawT := true, inTime := true }, rest)
  | c :: _ =>
    if !c.isDigit then none else readPart s dur

/-- The loop; every turn reads at least one character, so the length of the text bounds their number. -/
def loop : Nat → Scan → List Char → Option Int64
  | _, s, [] => some s.totalMs
  | 0, _, _ :: _ => none
  | fuel + 1, s, c :: dur =>
    match turn s (c :: dur) with
    | none => none
    | some (next, rest) => loop fuel next rest

end TwDuration

def twParseDurationMs (dur : String) : Int64 :=
  match dur.toList with
  | ['P'] => 0
  | 'P' :: rest => (TwDuration.loop rest.length {} rest).getD (-1)
  | _ => -1

/-! ## `Taskweft.Iso8601Duration` -/

namespace Iso8601Duration

inductive DurationUnit
  | y | mo | w | d | h | mi | s
  deriving DecidableEq

structure Component where
  unit : DurationUnit
  whole : Nat
  fracMilli : Nat
  deriving DecidableEq

inductive ParseError
  | empty
  | expectedP (text : String)
  | unexpectedEnd
  | invalidNumber (text : String)
  | dateAfterT (unit : DurationUnit)
  | timeBeforeT (unit : DurationUnit)
  | duplicateT
  | mixedBasicExtended
  | unexpectedToken (text : String)
  | nonCanonicalOrder (unit : DurationUnit)
  | fractionNotOnLast
  deriving DecidableEq

def unitsDate : Char → Option DurationUnit
  | 'Y' => some .y
  | 'M' => some .mo
  | 'W' => some .w
  | 'D' => some .d
  | _ => none

def unitsTime : Char → Option DurationUnit
  | 'H' => some .h
  | 'M' => some .mi
  | 'S' => some .s
  | _ => none

def crossDateInTime : Char → Option DurationUnit
  | 'Y' => some .y
  | 'D' => some .d
  | _ => none

def crossTimeInDate : Char → Option DurationUnit
  | 'H' => some .h
  | 'S' => some .s
  | _ => none

def unitMilliseconds : DurationUnit → Nat
  | .y => 365 * 86400 * 1000
  | .mo => 30 * 86400 * 1000
  | .w => 7 * 86400 * 1000
  | .d => 86400 * 1000
  | .h => 3600 * 1000
  | .mi => 60 * 1000
  | .s => 1000

def totalMilliseconds (components : List Component) : Nat :=
  components.foldl (fun acc c =>
    let base := c.whole * unitMilliseconds c.unit
    let frac := c.fracMilli * (unitMilliseconds c.unit / 1000)
    acc + base + frac) 0

def unitRank : DurationUnit → Int
  | .y => 0
  | .mo => 1
  | .d => 2
  | .w => 99
  | .h => 3
  | .mi => 4
  | .s => 5

inductive Lookup
  | ok (unit : DurationUnit)
  | cross (unit : DurationUnit)
  | unknown

/-- `lookup_unit` with the maps of its side. -/
def lookupIn (units cross : Char → Option DurationUnit) (c : Char) : Lookup :=
  match units c with
  | some unit => .ok unit
  | none =>
    match cross c with
    | some unit => .cross unit
    | none => .unknown

def lookupUnit (c : Char) (inTime : Bool) : Lookup :=
  if inTime then lookupIn unitsTime crossDateInTime c else lookupIn unitsDate crossTimeInDate c

def takeInt : List Char → Nat → String → Nat × String × List Char
  | [], acc, raw => (acc, raw, [])
  | d :: rest, acc, raw =>
    if d.isDigit then takeInt rest (acc * 10 + digitValue d) (raw.push d) else (acc, raw, d :: rest)

/-- `take_frac`: it stops after the third digit. -/
def takeFrac : List Char → Nat → Nat → String → Nat × String × List Char
  | [], acc, n, raw => (acc * 10 ^ (3 - n), raw, [])
  | d :: rest, acc, n, raw =>
    if d.isDigit ∧ n < 3 then takeFrac rest (acc * 10 + digitValue d) (n + 1) (raw.push d)
    else (acc * 10 ^ (3 - n), raw, d :: rest)

structure Number where
  whole : Nat
  milli : Nat
  hadFrac : Bool
  raw : String
  rest : List Char

def takeNumber (input : List Char) : Except ParseError Number :=
  if !startsWithDigit input then .error .unexpectedEnd
  else
    let (whole, raw, afterInt) := takeInt input 0 ""
    match afterInt with
    | '.' :: full =>
      if !startsWithDigit full then .error (.invalidNumber (raw ++ "."))
      else
        let (milli, rawWithFrac, afterFrac) := takeFrac full 0 0 (raw ++ ".")
        .ok ⟨whole, milli, true, rawWithFrac, afterFrac⟩
    | _ => .ok ⟨whole, 0, false, raw, afterInt⟩

/-- `classify_component` up to its call back of `parse_components`: the component and its rank. -/
def classifyComponent (number : Number) (unitC : Char) (inTime : Bool) (lastRank : Int) :
    Except ParseError (Component × Int) :=
  match lookupUnit unitC inTime with
  | .ok unit =>
    let rank := unitRank unit
    if rank ≤ lastRank then .error (.nonCanonicalOrder unit)
    else .ok (⟨unit, number.whole, number.milli⟩, rank)
  | .cross unit => if inTime then .error (.dateAfterT unit) else .error (.timeBeforeT unit)
  | .unknown => .error (.unexpectedToken (String.singleton unitC))

/-- A component, its rank, whether it had a fraction, and the rest of the text. -/
def readComponent (input : List Char) (acc : List Component) (inTime : Bool) (lastRank : Int) :
    Except ParseError (Component × Int × Bool × List Char) :=
  match takeNumber input with
  | .error err => .error err
  | .ok number =>
    match number.rest with
    | [] => .error (.invalidNumber number.raw)
    | unitC :: rest =>
      if unitC = 'W' ∧ (acc ≠ [] ∨ inTime) then .error .mixedBasicExtended
      else if acc.any (·.unit = .w) then .error .mixedBasicExtended
      else
        match classifyComponent number unitC inTime lastRank with
        | .error err => .error err
        | .ok (comp, rank) => .ok (comp, rank, number.hadFrac, rest)

/-- `parse_components`; every call reads at least one character, so the length of the text bounds their number. -/
def parseComponents : Nat → List Char → List Component → Bool → Bool → Int → Bool →
    Except ParseError (List Component)
  | _, [], acc, _, _, _, _ => .ok acc.reverse
  | 0, _ :: _, _, _, _, _, _ => .error .unexpectedEnd
  | fuel + 1, c :: rest, acc, inTime, sawT, lastRank, fracSeen =>
    if fracSeen then .error .fractionNotOnLast
    else if c = 'T' then
      if sawT then .error .duplicateT
      else if rest.isEmpty then .error .unexpectedEnd
      else parseComponents fuel rest acc true true (-1) false
    else if c.isDigit then
      match readComponent (c :: rest) acc inTime lastRank with
      | .error err => .error err
      | .ok (comp, rank, hadFrac, rest) => parseComponents fuel rest (comp :: acc) inTime sawT rank hadFrac
    else .error (.unexpectedToken (String.singleton c))

def parse (text : String) : Except ParseError (List Component) :=
  match text.toList with
  | [] => .error .empty
  | ['P'] => .ok []
  | 'P' :: rest => parseComponents rest.length rest [] false false (-1) false
  | c :: _ => .error (.expectedP (String.singleton c))

end Iso8601Duration

end WeftWarp
