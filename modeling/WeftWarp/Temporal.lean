import WeftWarp.Domain
import WeftWarp.Duration
import WeftWarp.Nodes

/-! # Temporal checks

`tw_check_temporal` of `tw_temporal.hpp`: the times at which the steps of a plan start and end, and a simple temporal
network over them. Times are milliseconds in an `int64_t`, the network computes with `double`s. -/

namespace WeftWarp

/-! ### Durations as text -/

/-- `std::to_string` -/
def int64Text (i : Int64) : String := toString i.toInt

/-- `.%03lld` without the zeros at its end. -/
def milliText (milli : Int64) : String :=
  let digits := (int64Text milli).toList
  let padded := List.replicate (3 - digits.length) '0' ++ digits
  String.ofList ('.' :: (padded.reverse.dropWhile (· = '0')).reverse)

def twFormatDurationMs (ms : Int64) : String :=
  let ms := if ms < 0 then 0 else ms
  let totalS := ms / 1000
  let milli := ms % 1000
  let h := totalS / 3600
  let totalS := totalS - h * 3600
  let m := totalS / 60
  let s := totalS % 60
  "PT" ++ (if 0 < h then int64Text h ++ "H" else "") ++ (if 0 < m then int64Text m ++ "M" else "") ++
    (if 0 < s ∨ 0 < milli ∨ (h = 0 ∧ m = 0) then
      int64Text s ++ (if 0 < milli then milliText milli else "") ++ "S"
    else "")

/-! ### Simple temporal networks -/

/-- `STN`: the points with their indices, and the distances between them row by row. -/
structure STN (F : Type) where
  points : List String
  idx : OrderedMap String Nat
  dist : List (List F)

namespace STN
variable {F : Type} [CxxMath F]

def empty : STN F := ⟨[], .empty, []⟩

/-- `d[i][j]` -/
def at' (d : List (List F)) (i j : Nat) : F := (d[i]?.getD [])[j]?.getD CxxMath.infinity

/-- `d[i][j] = v` -/
def setAt (d : List (List F)) (i j : Nat) (v : F) : List (List F) := d.modify i fun row => row.set j v

def addPoint (stn : STN F) (p : String) : STN F :=
  if (stn.idx.find? p).isSome then stn
  else
    let n := stn.points.length
    { points := stn.points ++ [p]
      idx := stn.idx.set p n
      dist := setAt (stn.dist.map (· ++ [CxxMath.infinity]) ++ [List.replicate (n + 1) CxxMath.infinity]) n n 0.0 }

/-- The distance from one point to another is lowered to `bound`. -/
def lower (stn : STN F) (i j : Nat) (bound : F) : STN F :=
  if Cxx.lt bound (at' stn.dist i j) then { stn with dist := setAt stn.dist i j bound } else stn

def addConstraint (stn : STN F) (source target : String) (lo hi : F) : STN F :=
  let stn := (stn.addPoint source).addPoint target
  let fi := (stn.idx.find? source).getD 0
  let ti := (stn.idx.find? target).getD 0
  (stn.lower fi ti hi).lower ti fi (-lo)

/-- The innermost loop of `consistent`: row `i` by way of `k`. -/
def relaxRow (n k i : Nat) (d : List (List F)) : List (List F) :=
  if Cxx.eq (at' d i k) CxxMath.infinity then d
  else (List.range n).foldl (fun d j =>
    if Cxx.eq (at' d k j) CxxMath.infinity then d
    else
      let via := at' d i k + at' d k j
      if Cxx.lt via (at' d i j) then setAt d i j via else d) d

def consistent (stn : STN F) : Bool :=
  let n := stn.points.length
  let d := (List.range n).foldl (fun d k => (List.range n).foldl (fun d i => relaxRow n k i d) d) stn.dist
  (List.range n).all fun i => !Cxx.lt (at' d i i) 0.0

end STN

/-! ### Plans -/

structure TwTemporalStep where
  actionName : String
  durationIso : String
  startIso : String
  endIso : String
  deriving DecidableEq

structure TwTemporalResult where
  consistent : Bool
  totalIso : String
  originIso : String
  steps : List TwTemporalStep
  deriving DecidableEq

section Check
variable {F : Type} [CxxMath F]

/-- The variables of the loop of `tw_check_temporal`. -/
structure Timing (F : Type) where
  stn : STN F
  prevEnd : String
  current : Int64
  totalMs : Int64
  steps : List TwTemporalStep

/-- The duration of an action: its text, and its milliseconds if the text can be read. -/
def actionDuration (d : TwDomain F) (name : String) : String × Int64 :=
  match d.actionDurations.find? name with
  | none => ("", 0)
  | some dur =>
    let parsed := twParseDurationMs dur
    (dur, if 0 ≤ parsed then parsed else 0)

/-- One round of the loop, for the step `i` of the plan. -/
def Timing.push (d : TwDomain F) (t : Timing F) (step : TwCall F × Nat) : Timing F :=
  let (durIso, durMs) := actionDuration d step.1.name
  let durS := Cxx.ofInt64 durMs / (1000.0 : F)
  let start := "a" ++ toString step.2 ++ "_start"
  let finish := "a" ++ toString step.2 ++ "_end"
  { stn := (t.stn.addConstraint t.prevEnd start 0.0 0.0).addConstraint start finish durS durS
    prevEnd := finish
    current := t.current + durMs
    totalMs := t.totalMs + durMs
    steps := t.steps ++ [⟨step.1.name, if durIso = "" then "PT0S" else durIso, twFormatDurationMs t.current,
      twFormatDurationMs (t.current + durMs)⟩] }

def twCheckTemporal (plan : List (TwCall F)) (d : TwDomain F) (originIso : String) : TwTemporalResult :=
  if plan.isEmpty then ⟨true, "PT0S", originIso, []⟩
  else
    let parsed := twParseDurationMs originIso
    let originMs := if parsed < 0 then 0 else parsed
    let t := plan.zipIdx.foldl (Timing.push d) ⟨STN.empty.addPoint "t0", "t0", originMs, 0, []⟩
    ⟨t.stn.consistent, twFormatDurationMs t.totalMs, originIso, t.steps⟩

end Check

/-! ### The answer -/

def stepToJson (step : TwTemporalStep) : String :=
  "\x7b\"action\": \"" ++ step.actionName ++ "\", \"duration\": \"" ++ step.durationIso ++ "\", \"start\": \"" ++
    step.startIso ++ "\", \"end\": \"" ++ step.endIso ++ "\"\x7d"

def twTemporalToJson (tr : TwTemporalResult) (planJson : String) : String :=
  "\x7b\n  \"plan\": " ++ planJson ++ ",\n  \"temporal\": \x7b\n    \"consistent\": " ++
    (if tr.consistent then "true" else "false") ++ ",\n    \"origin\": \"" ++ tr.originIso ++
    "\",\n    \"total\": \"" ++ tr.totalIso ++ "\",\n    \"steps\": [" ++
    ", ".intercalate (tr.steps.map stepToJson) ++ "]\n  \x7d\n\x7d"

end WeftWarp
