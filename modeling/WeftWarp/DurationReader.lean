import WeftWarp.Duration

/-! # The loop of the duration readers

`tw_parse_duration_ms` and `tw_civil_duration_ms` share their loop and differ in what they do with a number and its
unit. Here the loop is written once, over whatever a reader keeps beside the flags; it leaves what was kept also where
it returns -1. The readers here add up the milliseconds of fixed units, in 64 bits and over unbounded integers. -/

namespace WeftWarp
namespace TwDuration

/-- The variables that decide what may come next. -/
structure Flags where
  inTime : Bool := false
  sawT : Bool := false
  fracSeen : Bool := false
  sawW : Bool := false
  sawAny : Bool := false
  lastRank : Int := -1

/-- The tests on a unit: the flags behind it and its milliseconds, if it is accepted. -/
def Flags.accept (s : Flags) (hasFrac : Bool) (unitC : Char) : Option (Flags × Int64) :=
  match classify s.inTime unitC with
  | none => none
  | some (rank, unitMs) =>
    if unitC = 'W' ∧ (s.sawAny ∨ s.inTime) then none
    else if s.sawW then none
    else if rank ≠ 99 ∧ rank ≤ s.lastRank then none
    else
      some ({ s with
        sawW := unitC == 'W'
        lastRank := if rank = 99 then s.lastRank else rank
        fracSeen := hasFrac
        sawAny := true }, unitMs)

/-- A number as it was read, with its unit. -/
structure Reading where
  whole : List Char
  frac : Option (List Char)
  inTime : Bool
  unitC : Char
  unitMs : Int64

/-- What a reader does beside the flags. -/
structure Reader (σ : Type) where
  /-- The digits before the point are read. -/
  whole : σ → List Char → σ
  /-- The digits behind the point are read. -/
  fraction : σ → List Char → σ
  /-- The unit is accepted. -/
  part : σ → Reading → σ

namespace Reader
variable {σ : Type}

/-- The unit of a number; `none` is a return of -1. -/
def readUnit (r : Reader σ) (s : Flags) (kept : σ) (whole : List Char) (frac : Option (List Char)) :
    List Char → Option (Flags × List Char) × σ
  | [] => (none, kept)
  | unitC :: rest =>
    match s.accept frac.isSome unitC with
    | none => (none, kept)
    | some (next, unitMs) => (some (next, rest), r.part kept ⟨whole, frac, s.inTime, unitC, unitMs⟩)

/-- A number and its unit, at the first digit. -/
def readPart (r : Reader σ) (s : Flags) (kept : σ) (dur : List Char) : Option (Flags × List Char) × σ :=
  let whole := dur.takeWhile Char.isDigit
  let kept := r.whole kept whole
  match dur.dropWhile Char.isDigit with
  | '.' :: rest =>
    if !startsWithDigit rest then (none, kept)
    else
      let frac := rest.takeWhile Char.isDigit
      r.readUnit s (r.fraction kept frac) whole (some frac) (rest.dropWhile Char.isDigit)
  | rest => r.readUnit s kept whole none rest

/-- One turn of the loop on a text that is not at its end. -/
def turn (r : Reader σ) (s : Flags) (kept : σ) (dur : List Char) : Option (Flags × List Char) × σ :=
  if s.fracSeen then (none, kept)
  else match dur with
  | [] => (none, kept)
  | 'T' :: rest =>
    if s.sawT then (none, kept)
    else if rest.isEmpty then (none, kept)
    else (some ({ s with sawT := true, inTime := true }, rest), kept)
  | c :: _ =>
    if !c.isDigit then (none, kept) else r.readPart s kept dur

/-- The loop: whether it reaches the end of the text, and what is kept by then. -/
def loop (r : Reader σ) : Nat → Flags → σ → List Char → Bool × σ
  | _, _, kept, [] => (true, kept)
  | 0, _, kept, _ :: _ => (false, kept)
  | fuel + 1, s, kept, c :: dur =>
    match r.turn s kept (c :: dur) with
    | (none, kept) => (false, kept)
    | (some (next, rest), kept) => r.loop fuel next kept rest

/-- The whole function, from what is kept at first. -/
def run (r : Reader σ) (kept : σ) (dur : String) : Bool × σ :=
  match dur.toList with
  | ['P'] => (true, kept)
  | 'P' :: rest => r.loop rest.length {} kept rest
  | _ => (false, kept)

end Reader

/-- `tw_parse_duration_ms`: it keeps `total_ms`. -/
def fixed : Reader Int64 where
  whole totalMs _ := totalMs
  fraction totalMs _ := totalMs
  part totalMs read :=
    let totalMs := totalMs + readDigits read.whole * read.unitMs
    match read.frac with
    | none => totalMs
    | some digits => totalMs + fracMilli digits * (read.unitMs / 1000)

/-! ## Unbounded integers -/

/-- The total over unbounded integers, and the results of the operations on `int64_t` so far. -/
structure Ledger where
  totalMs : Int := 0
  results : List Int := []
  deriving DecidableEq

/-- The results of `acc = acc * 10 + digit` for one digit after the other. -/
def accumulated : Int → List Char → List Int
  | _, [] => []
  | acc, c :: digits => acc * 10 :: (acc * 10 + digitValue c) :: accumulated (acc * 10 + digitValue c) digits

/-- The results of `acc *= 10`. -/
def padded : Int → Nat → List Int
  | _, 0 => []
  | acc, n + 1 => acc * 10 :: padded (acc * 10) n

def exactDigits (digits : List Char) : Int :=
  digits.foldl (fun whole c => whole * 10 + digitValue c) 0

def exactMilli (digits : List Char) : Int :=
  Nat.repeat (· * 10) (3 - (digits.take 3).length) (exactDigits (digits.take 3))

def exact : Reader Ledger where
  whole l digits := { l with results := l.results ++ accumulated 0 digits }
  fraction l digits :=
    { l with
      results := l.results ++ accumulated 0 (digits.take 3) ++
        padded (exactDigits (digits.take 3)) (3 - (digits.take 3).length) }
  part l read :=
    let product := exactDigits read.whole * read.unitMs.toInt
    let totalMs := l.totalMs + product
    match read.frac with
    | none => ⟨totalMs, l.results ++ [product, totalMs]⟩
    | some digits =>
      let thousandths := exactMilli digits * (read.unitMs.toInt / 1000)
      ⟨totalMs + thousandths, l.results ++ [product, totalMs, thousandths, totalMs + thousandths]⟩

end TwDuration

/-- `tw_parse_duration_ms` over unbounded integers. -/
def twParseDurationMsExact (dur : String) : Int :=
  match TwDuration.exact.run {} dur with
  | (true, l) => l.totalMs
  | (false, _) => -1

/-- What the operations on `int64_t` give over unbounded integers, up to the return. -/
def twParseDurationMsResults (dur : String) : List Int :=
  (TwDuration.exact.run {} dur).2.results

end WeftWarp
