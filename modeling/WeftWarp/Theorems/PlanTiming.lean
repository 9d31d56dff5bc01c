import WeftWarp.Theorems.DurationText
import WeftWarp.Theorems.StnConsistency

/-! # The times of a plan

`tw_check_temporal` lets every step start where the one before it ends. The times it prints denote these moments, and
they satisfy the network that it builds. -/

namespace WeftWarp
open Iso8601Duration

/-! ### Milliseconds -/

/-- The milliseconds in the text of a duration. -/
def millisecondsOf (iso : String) : Int := (twParseDurationMs iso).toInt

section Steps
variable {F : Type} [CxxMath F] {d : TwDomain F}

/-- The milliseconds for which an action is planned: none without a duration, or with one that cannot be read. -/
def plannedMs (d : TwDomain F) (name : String) : Nat :=
  match d.actionDurations.find? name with
  | none => 0
  | some dur => (millisecondsOf dur).toNat

theorem ofNat_toNat {ms : Int64} (nonneg : 0 ≤ ms) : Int64.ofNat ms.toInt.toNat = ms := by
  obtain ⟨n, fits, rfl⟩ := exists_ofNat nonneg
  rw [Int64.toInt_ofNat_of_lt fits, Int.toNat_natCast]

theorem toNat_of_neg {ms : Int64} (negative : ms < 0) : ms.toInt.toNat = 0 :=
  Int.toNat_of_nonpos (Int.le_of_lt (Int64.lt_iff_toInt_lt.mp negative))

omit [CxxMath F] in
theorem actionDuration_snd (d : TwDomain F) (name : String) :
    (actionDuration d name).2 = Int64.ofNat (plannedMs d name) := by
  unfold actionDuration plannedMs millisecondsOf
  cases d.actionDurations.find? name with
  | none => rfl
  | some dur =>
    dsimp only
    by_cases nonneg : 0 ≤ twParseDurationMs dur
    · rw [if_pos nonneg, ofNat_toNat nonneg]
    · rw [if_neg nonneg, toNat_of_neg (Int64.not_le.mp nonneg)]
      rfl

/-- The steps follow one another from `start` on, each for as long as its action is planned. -/
def Follow (d : TwDomain F) : Nat → List (TwCall F) → List TwTemporalStep → Prop
  | _, [], [] => True
  | start, c :: plan, step :: steps =>
    step.actionName = c.name ∧ millisecondsOf step.startIso = start ∧
      millisecondsOf step.endIso = start + plannedMs d c.name ∧ Follow d (start + plannedMs d c.name) plan steps
  | _, _, _ => False

/-- The milliseconds of a plan. -/
def totalPlanned (d : TwDomain F) (plan : List (TwCall F)) : Nat := (plan.map fun c => plannedMs d c.name).sum

theorem millisecondsOf_format {n : Nat} (fits : n < 2 ^ 63) : millisecondsOf (twFormatDurationMs (Int64.ofNat n)) = n := by
  rw [millisecondsOf, parse_format_ofNat fits, Int64.toInt_ofNat_of_lt fits]

/-- What the loop leaves of a plan: the times of its steps, and their sum. -/
theorem foldl_push (plan : List (TwCall F)) (k start total : Nat) (t : Timing F) (current : t.current = Int64.ofNat start)
    (totalMs : t.totalMs = Int64.ofNat total) (fits : start + totalPlanned d plan < 2 ^ 63) :
    ∃ steps, ((plan.zipIdx k).foldl (Timing.push d) t).steps = t.steps ++ steps ∧ Follow d start plan steps ∧
      ((plan.zipIdx k).foldl (Timing.push d) t).totalMs = Int64.ofNat (total + totalPlanned d plan) := by
  induction plan generalizing k start total t with
  | nil => exact ⟨[], by simp, trivial, totalMs⟩
  | cons c plan ih =>
    have duration := actionDuration_snd d c.name
    have split : totalPlanned d (c :: plan) = plannedMs d c.name + totalPlanned d plan := by simp [totalPlanned]
    rw [split] at fits ⊢
    have ends : t.current + (actionDuration d c.name).2 = Int64.ofNat (start + plannedMs d c.name) := by
      rw [Int64.ofNat_add, ← current, ← duration]
    have sum : t.totalMs + (actionDuration d c.name).2 = Int64.ofNat (total + plannedMs d c.name) := by
      rw [Int64.ofNat_add, ← totalMs, ← duration]
    obtain ⟨steps, left, follow, sum⟩ := ih (k + 1) _ _ (t.push d (c, k)) ends sum (by omega)
    refine ⟨⟨c.name, if (actionDuration d c.name).1 = "" then "PT0S" else (actionDuration d c.name).1,
      twFormatDurationMs t.current, twFormatDurationMs (t.current + (actionDuration d c.name).2)⟩ :: steps, ?_, ?_, ?_⟩
    · rw [List.zipIdx_cons, List.foldl_cons, left]
      exact (List.append_assoc t.steps [_] steps).trans rfl
    · refine ⟨rfl, ?_, ?_, follow⟩
      · rw [current]
        exact millisecondsOf_format (by omega)
      · rw [ends, millisecondsOf_format (by omega), Int.natCast_add]
    · rw [List.zipIdx_cons, List.foldl_cons, sum]
      congr 1
      omega

end Steps

/-! ### The network -/

section Network
open STN ExtendedRational
variable {d : TwDomain ExtendedRational}

/-- The point where a step starts. -/
def startPoint (i : Nat) : String := "a" ++ toString i ++ "_start"

/-- The point where a step ends. -/
def endPoint (i : Nat) : String := "a" ++ toString i ++ "_end"

theorem repr_inj {i j : Nat} (same : i.repr.toList = j.repr.toList) : i = j := by
  rw [← digitsValue_decimal i, ← digitsValue_decimal j, same]

theorem toList_startPoint (i : Nat) : (startPoint i).toList = 'a' :: (i.repr.toList ++ "_start".toList) := by
  rw [startPoint, String.toList_append, String.toList_append]
  rfl

theorem toList_endPoint (i : Nat) : (endPoint i).toList = 'a' :: (i.repr.toList ++ "_end".toList) := by
  rw [endPoint, String.toList_append, String.toList_append]
  rfl

theorem startPoint_inj {i j : Nat} (same : startPoint i = startPoint j) : i = j := by
  have texts := congrArg String.toList same
  rw [toList_startPoint, toList_startPoint] at texts
  exact repr_inj (List.append_cancel_right (List.cons.inj texts).2)

theorem endPoint_inj {i j : Nat} (same : endPoint i = endPoint j) : i = j := by
  have texts := congrArg String.toList same
  rw [toList_endPoint, toList_endPoint] at texts
  exact repr_inj (List.append_cancel_right (List.cons.inj texts).2)

theorem startPoint_ne_endPoint (i j : Nat) : startPoint i ≠ endPoint j := by
  intro same
  have last := congrArg (fun s : String => s.toList.getLast?) same
  simp [toList_startPoint, toList_endPoint, List.getLast?_cons] at last

theorem exists_times (offset : Nat → ℚ) (start : offset 0 = 0) :
    ∃ time : String → ℚ, time "t0" = offset 0 ∧ (∀ i, time (startPoint i) = offset i) ∧
      ∀ i, time (endPoint i) = offset (i + 1) := by
  have starts : Function.Injective startPoint := fun _ _ => startPoint_inj
  have ends : Function.Injective endPoint := fun _ _ => endPoint_inj
  have notStart : ¬∃ i, startPoint i = "t0" := by
    rintro ⟨i, same⟩
    have texts := congrArg String.toList same
    rw [toList_startPoint] at texts
    exact absurd (List.cons.inj texts).1 (by decide)
  have notEnd : ¬∃ i, endPoint i = "t0" := by
    rintro ⟨i, same⟩
    have texts := congrArg String.toList same
    rw [toList_endPoint] at texts
    exact absurd (List.cons.inj texts).1 (by decide)
  refine ⟨Function.extend endPoint (fun i => offset (i + 1)) (Function.extend startPoint offset 0), ?_, ?_, ?_⟩
  · rw [Function.extend_apply' _ _ _ notEnd, Function.extend_apply' _ _ _ notStart, start]
    rfl
  · intro i
    have other : ¬∃ j, endPoint j = startPoint i := fun ⟨j, same⟩ => startPoint_ne_endPoint i j same.symm
    rw [Function.extend_apply' _ _ _ other, starts.extend_apply]
  · intro i
    rw [ends.extend_apply]

theorem seconds_eq (n : Nat) (fits : n < 2 ^ 63) :
    Cxx.ofInt64 (Int64.ofNat n) / (1000.0 : ExtendedRational) = .finite (n / 1000) := by
  have thousand : (OfScientific.ofScientific 10000 true 1 : ℚ) = 1000 := by norm_num
  have divided : Cxx.ofInt64 (Int64.ofNat n) / (1000.0 : ExtendedRational) =
      ExtendedRational.div (.finite (Int64.ofNat n).toInt) (.finite (OfScientific.ofScientific 10000 true 1)) := rfl
  rw [divided, thousand, Int64.toInt_ofNat_of_lt fits, ExtendedRational.div, if_neg (by norm_num)]
  rfl

theorem plannedMs_lt (d : TwDomain ExtendedRational) (name : String) : plannedMs d name < 2 ^ 63 := by
  unfold plannedMs millisecondsOf
  split
  · decide
  · have upper := (twParseDurationMs ‹String›).toInt_lt
    omega

/-- One round of the loop adds two constraints, and the times meet them. -/
theorem accepts_push {time : String → ℚ} {t : Timing ExtendedRational} {P : (String → ℚ) → Prop}
    (accepts : Accepts t.stn P) (holds : P time) {offset : Nat → ℚ} {k : Nat} (before : time t.prevEnd = offset k)
    (starts : time (startPoint k) = offset k) (ends : time (endPoint k) = offset (k + 1)) (c : TwCall ExtendedRational)
    (step : offset (k + 1) = offset k + plannedMs d c.name / 1000) :
    ∃ Q, Accepts (t.push d (c, k)).stn Q ∧ Q time := by
  have waited := accepts.addConstraint t.prevEnd (startPoint k) (0 : ℚ) (0 : ℚ)
  have worked := waited.addConstraint (startPoint k) (endPoint k) (plannedMs d c.name / 1000 : ℚ)
    (plannedMs d c.name / 1000 : ℚ)
  have seconds := seconds_eq _ (plannedMs_lt d c.name)
  rw [← actionDuration_snd] at seconds
  have pushed : (t.push d (c, k)).stn =
      (t.stn.addConstraint t.prevEnd (startPoint k) 0.0 0.0).addConstraint (startPoint k) (endPoint k)
        (Cxx.ofInt64 (actionDuration d c.name).2 / 1000.0) (Cxx.ofInt64 (actionDuration d c.name).2 / 1000.0) := rfl
  rw [pushed, seconds, zero_eq]
  refine ⟨_, worked, ⟨holds, ?_⟩, ?_⟩
  · rw [Between, before, starts, sub_self]
    exact ⟨le_rfl, le_rfl⟩
  · rw [Between, starts, ends, step, add_sub_cancel_left]
    exact ⟨le_rfl, le_rfl⟩

theorem accepts_foldl_push {time : String → ℚ} {offset : Nat → ℚ} (starts : ∀ i, time (startPoint i) = offset i)
    (ends : ∀ i, time (endPoint i) = offset (i + 1)) (plan : List (TwCall ExtendedRational)) (k : Nat)
    (steps : ∀ step ∈ plan.zipIdx k, offset (step.2 + 1) = offset step.2 + plannedMs d step.1.name / 1000)
    {t : Timing ExtendedRational} (before : time t.prevEnd = offset k)
    (accepts : ∃ P, Accepts t.stn P ∧ P time) : ∃ P, Accepts ((plan.zipIdx k).foldl (Timing.push d) t).stn P ∧ P time := by
  induction plan generalizing k t with
  | nil => exact accepts
  | cons c plan ih =>
    obtain ⟨P, accepts, holds⟩ := accepts
    rw [List.zipIdx_cons] at steps ⊢
    have step := steps (c, k) List.mem_cons_self
    exact ih (k + 1) (fun step mem => steps step (List.mem_cons_of_mem _ mem)) (ends k)
      (accepts_push accepts holds before (starts k) (ends k) c step)

theorem consistent_foldl_push (plan : List (TwCall ExtendedRational)) (t : Timing ExtendedRational)
    (chain : t.stn = STN.empty.addPoint "t0") (origin : t.prevEnd = "t0") :
    (plan.zipIdx.foldl (Timing.push d) t).stn.consistent = true := by
  let offset (i : Nat) : ℚ := (totalPlanned d (plan.take i) : ℚ) / 1000
  obtain ⟨time, atOrigin, starts, ends⟩ := exists_times offset (by simp [offset, totalPlanned])
  have steps : ∀ step ∈ plan.zipIdx, offset (step.2 + 1) = offset step.2 + plannedMs d step.1.name / 1000 := by
    rintro ⟨c, i⟩ mem
    have found := List.mem_zipIdx_iff_getElem?.mp mem
    have longer : plan.take (i + 1) = plan.take i ++ [c] := by rw [List.take_add_one, found]; rfl
    simp only [offset, longer, totalPlanned, List.map_append, List.sum_append, List.map_cons, List.map_nil,
      List.sum_singleton, Nat.cast_add, add_div]
  have first : ∃ P, Accepts t.stn P ∧ P time := by
    rw [chain]
    exact ⟨_, accepts_empty.addPoint "t0", trivial⟩
  obtain ⟨P, accepts, holds⟩ := accepts_foldl_push starts ends plan 0 steps (by rw [origin]; exact atOrigin) first
  exact accepts.consistent_iff.mpr ⟨time, holds⟩

end Network

/-! ### The report -/

/-- The offset of the plan: none if the text cannot be read. -/
def originOffset (originIso : String) : Nat := (millisecondsOf originIso).toNat

/-- As long as the sums fit, the report is consistent, the steps follow one another from the origin on, each for as
    long as its action is planned, and the total is the sum of their durations. -/
theorem twCheckTemporal_sequential (plan : List (TwCall ExtendedRational)) (d : TwDomain ExtendedRational)
    (originIso : String) (fits : originOffset originIso + totalPlanned d plan < 2 ^ 63) :
    let report := twCheckTemporal plan d originIso
    report.consistent = true ∧ Follow d (originOffset originIso) plan report.steps ∧
      millisecondsOf report.totalIso = totalPlanned d plan := by
  intro report
  cases plan with
  | nil =>
    have zero : millisecondsOf "PT0S" = 0 := by decide +kernel
    exact ⟨rfl, trivial, zero⟩
  | cons c plan =>
    have offset : (if twParseDurationMs originIso < 0 then 0 else twParseDurationMs originIso) =
        Int64.ofNat (originOffset originIso) := by
      unfold originOffset millisecondsOf
      split
      · rename_i negative
        rw [toNat_of_neg negative]
        rfl
      · rename_i nonneg
        rw [ofNat_toNat (Int64.not_lt.mp nonneg)]
    obtain ⟨steps, left, follow, total⟩ := foldl_push (d := d) (c :: plan) 0 (originOffset originIso) 0
      ⟨STN.empty.addPoint "t0", "t0", Int64.ofNat (originOffset originIso), 0, []⟩ rfl rfl fits
    have consistent := consistent_foldl_push (d := d) (c :: plan)
      ⟨STN.empty.addPoint "t0", "t0", Int64.ofNat (originOffset originIso), 0, []⟩ rfl rfl
    have reported : report = twCheckTemporal (c :: plan) d originIso := rfl
    unfold twCheckTemporal at reported
    rw [List.isEmpty_cons, if_neg Bool.false_ne_true] at reported
    dsimp only at reported
    rw [offset] at reported
    rw [reported]
    refine ⟨consistent, ?_, ?_⟩
    · dsimp only
      rw [left]
      exact follow
    · dsimp only
      rw [total, Nat.zero_add]
      exact millisecondsOf_format (by omega)

/-- A walk of ten minutes; the text of the other duration cannot be read. -/
def errandDomain : TwDomain ExtendedRational where
  actions := .empty
  taskMethods := .empty
  actionDurations := (OrderedMap.empty.set "walk" "PT10M").set "wait" "10 minutes"

theorem twCheckTemporal_errand :
    let plan := [⟨"walk", []⟩, ⟨"wait", []⟩, ⟨"rest", []⟩, ⟨"walk", []⟩]
    let report := twCheckTemporal plan errandDomain "P1D"
    originOffset "P1D" = 86400000 ∧ report.consistent = true ∧ Follow errandDomain 86400000 plan report.steps ∧
      millisecondsOf report.totalIso = 1200000 := by
  have offset : originOffset "P1D" = 86400000 := by decide +kernel
  have total : totalPlanned errandDomain [⟨"walk", []⟩, ⟨"wait", []⟩, ⟨"rest", []⟩, ⟨"walk", []⟩] = 1200000 := by
    decide +kernel
  have fits : originOffset "P1D" + totalPlanned errandDomain [⟨"walk", []⟩, ⟨"wait", []⟩, ⟨"rest", []⟩, ⟨"walk", []⟩] <
      2 ^ 63 := by
    rw [offset, total]
    decide
  obtain ⟨consistent, follow, sum⟩ := twCheckTemporal_sequential _ errandDomain "P1D" fits
  rw [offset] at follow
  rw [total] at sum
  exact ⟨offset, consistent, follow, sum⟩

end WeftWarp
