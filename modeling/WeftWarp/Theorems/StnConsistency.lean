import Mathlib.Algebra.Order.Ring.Rat
import WeftWarp.Lib.DifferenceBounds
import WeftWarp.Rational
import WeftWarp.Temporal

/-! # Consistency of temporal networks

Over exact rationals a network bounds the times between its points. Every call adds what it says, and the three loops
of `consistent` close the bounds. -/

namespace WeftWarp

/-! ### Bounds as numbers -/

namespace ExtendedRational

/-- An upper bound of the network. -/
def ofUpper : WithTop ℚ → ExtendedRational
  | ⊤ => .posInf
  | (q : ℚ) => .finite q

/-- A lower bound of the network. -/
def ofLower : WithBot ℚ → ExtendedRational
  | ⊥ => .negInf
  | (q : ℚ) => .finite q

/-- A lower bound on a difference is an upper bound on the difference the other way round. -/
def turned : WithBot ℚ → WithTop ℚ
  | ⊥ => ⊤
  | (q : ℚ) => ((-q : ℚ) : WithTop ℚ)

theorem neg_ofLower (lo : WithBot ℚ) : -ofLower lo = ofUpper (turned lo) := by
  cases lo <;> rfl

theorem le_turned_iff (lo : WithBot ℚ) (a b : ℚ) :
    ((a - b : ℚ) : WithTop ℚ) ≤ turned lo ↔ lo ≤ ((b - a : ℚ) : WithBot ℚ) := by
  cases lo with
  | bot => simp [turned]
  | coe q =>
    have upper : turned (q : WithBot ℚ) = ((-q : ℚ) : WithTop ℚ) := rfl
    rw [upper, WithTop.coe_le_coe, WithBot.coe_le_coe, ← neg_sub b a]
    exact neg_le_neg_iff

theorem lt_ofUpper (a b : WithTop ℚ) : Cxx.lt (ofUpper a) (ofUpper b) = decide (a < b) := by
  cases a with
  | top => cases b <;> simp [ofUpper, Cxx.lt, lt]
  | coe a => cases b <;> simp [ofUpper, Cxx.lt, lt]

theorem add_ofUpper (a b : WithTop ℚ) : ofUpper a + ofUpper b = ofUpper (a + b) := by
  cases a <;> cases b <;> rfl

theorem eq_infinity (a : WithTop ℚ) : Cxx.eq (ofUpper a) CxxMath.infinity = decide (a = ⊤) := by
  cases a <;> rfl

theorem zero_eq : (0.0 : ExtendedRational) = ofUpper 0 := by
  have zero : (OfScientific.ofScientific 0 true 1 : ℚ) = 0 := by norm_num
  exact congrArg ExtendedRational.finite zero

end ExtendedRational

namespace STN
open ExtendedRational

/-! ### Stored bounds -/

/-- The rows hold the bounds between the first `n` points. -/
structure Stores (n : Nat) (d : List (List ExtendedRational)) (bounds : Bounds Nat ℚ) : Prop where
  rows : d.length = n
  columns : ∀ row ∈ d, row.length = n
  entries : ∀ i j, at' d i j = ofUpper (bounds i j)

section Stored
variable {n : Nat} {d : List (List ExtendedRational)} {bounds : Bounds Nat ℚ}

theorem Stores.setAt (stores : Stores n d bounds) {i j : Nat} (hi : i < n) (hj : j < n) (v : WithTop ℚ) :
    Stores n (setAt d i j (ofUpper v)) (bounds.put i j v) := by
  refine ⟨by rw [STN.setAt, List.length_modify, stores.rows], ?_, ?_⟩
  · intro row mem
    unfold STN.setAt at mem
    obtain ⟨a, ha, rfl⟩ := List.getElem_of_mem mem
    rw [List.getElem_modify]
    split
    · rw [List.length_set, stores.columns _ (List.getElem_mem _)]
    · exact stores.columns _ (List.getElem_mem _)
  · intro a b
    have entry := stores.entries a b
    unfold at' at entry ⊢
    unfold STN.setAt Bounds.put
    by_cases row : i = a
    · subst row
      have inRange : i < d.length := by rw [stores.rows]; exact hi
      have width : d[i].length = n := stores.columns _ (List.getElem_mem inRange)
      rw [List.getElem?_modify_eq, List.getElem?_eq_getElem inRange] at *
      by_cases column : j = b
      · subst column
        simp [width, hj]
      · rw [if_neg fun here => column here.2.symm, ← entry]
        simp [column]
    · rw [List.getElem?_modify_ne _ _ row, if_neg fun here => row here.1.symm]
      exact entry

/-- The body of the innermost loop. -/
theorem Stores.relax (stores : Stores n d bounds) {k i j : Nat} (hi : i < n) (hj : j < n) :
    Stores n (if Cxx.eq (at' d k j) CxxMath.infinity then d
      else
        let via := at' d i k + at' d k j
        if Cxx.lt via (at' d i j) then STN.setAt d i j via else d) (Bounds.relax k bounds i j) := by
  rw [stores.entries, stores.entries, stores.entries, eq_infinity, add_ofUpper]
  dsimp only
  rw [lt_ofUpper]
  have unchanged : bounds i j ≤ bounds i k + bounds k j → Bounds.relax k bounds i j = bounds := by
    intro below
    rw [Bounds.relax, min_eq_left below, Bounds.put_self]
  by_cases unbounded : bounds k j = ⊤
  · rw [if_pos (decide_eq_true unbounded), unchanged (by rw [unbounded, add_top]; exact le_top)]
    exact stores
  · rw [if_neg (by simpa using unbounded)]
    by_cases shorter : bounds i k + bounds k j < bounds i j
    · rw [if_pos (decide_eq_true shorter)]
      rw [Bounds.relax, min_eq_right shorter.le]
      exact stores.setAt hi hj _
    · rw [if_neg (by simpa using shorter), unchanged (not_lt.mp shorter)]
      exact stores

theorem foldl_relax_of_top {k i : Nat} (unbounded : bounds i k = ⊤) (js : List Nat) :
    js.foldl (fun bounds j => Bounds.relax k bounds i j) bounds = bounds := by
  induction js with
  | nil => rfl
  | cons j js ih =>
    have unchanged : Bounds.relax k bounds i j = bounds := by
      rw [Bounds.relax, unbounded, top_add, min_eq_left le_top, Bounds.put_self]
    rw [List.foldl_cons, unchanged, ih]

theorem Stores.relaxRow (stores : Stores n d bounds) {k i : Nat} (hi : i < n) :
    Stores n (relaxRow n k i d) ((List.range n).foldl (fun bounds j => Bounds.relax k bounds i j) bounds) := by
  unfold STN.relaxRow
  rw [stores.entries, eq_infinity]
  by_cases unbounded : bounds i k = ⊤
  · rw [if_pos (decide_eq_true unbounded), foldl_relax_of_top unbounded]
    exact stores
  · rw [if_neg (by simpa using unbounded)]
    exact List.foldl_rel stores fun j hj _ _ stores => stores.relax hi (List.mem_range.mp hj)

theorem Stores.close (stores : Stores n d bounds) :
    Stores n ((List.range n).foldl (fun d k => (List.range n).foldl (fun d i => STN.relaxRow n k i d) d) d)
      (bounds.close (List.range n)) := by
  refine List.foldl_rel stores fun k _ _ _ stores => ?_
  exact List.foldl_rel stores fun i hi _ _ stores => stores.relaxRow (List.mem_range.mp hi)

end Stored

/-! ### Times of the points -/

variable {stn : STN ExtendedRational} {bounds : Bounds Nat ℚ} {p : String}

/-- The name of a point. -/
def pointAt (points : List String) (i : Nat) : String := points[i]?.getD ""

/-- The times of the points keep to the bounds. -/
def Keeps (points : List String) (bounds : Bounds Nat ℚ) (time : String → ℚ) : Prop :=
  ∀ i < points.length, ∀ j < points.length,
    ((time (pointAt points j) - time (pointAt points i) : ℚ) : WithTop ℚ) ≤ bounds i j

/-- The network holds the bounds between its points. -/
structure Holds (stn : STN ExtendedRational) (bounds : Bounds Nat ℚ) : Prop where
  index : ∀ p i, stn.idx.find? p = some i ↔ stn.points[i]? = some p
  stores : Stores stn.points.length stn.dist bounds
  diagonal : ∀ i < stn.points.length, bounds i i ≠ ⊤

theorem Holds.consistent_iff (holds : Holds stn bounds) : stn.consistent = true ↔ ∃ time, Keeps stn.points bounds time := by
  have closed := holds.stores.close
  have loops : stn.consistent = true ↔ ∀ i ∈ List.range stn.points.length,
      0 ≤ bounds.close (List.range stn.points.length) i i := by
    unfold consistent
    rw [List.all_eq_true]
    refine forall₂_congr fun i _ => ?_
    rw [closed.entries, zero_eq, lt_ofUpper, Bool.not_eq_true', decide_eq_false_iff_not, not_lt]
  rw [loops, ← Bounds.exists_meets_iff fun i hi => holds.diagonal i (List.mem_range.mp hi)]
  constructor
  · rintro ⟨t, meets⟩
    -- Every point has one index, so times of indices are times of points.
    have found : ∀ i < stn.points.length, (stn.idx.find? (pointAt stn.points i)).getD 0 = i := by
      intro i inside
      have point : stn.points[i]? = some (pointAt stn.points i) := by
        rw [pointAt, List.getElem?_eq_getElem inside, Option.getD_some]
      rw [(holds.index _ _).mpr point, Option.getD_some]
    refine ⟨fun p => t ((stn.idx.find? p).getD 0), fun i hi j hj => ?_⟩
    dsimp only
    rw [found i hi, found j hj]
    exact meets i (List.mem_range.mpr hi) j (List.mem_range.mpr hj)
  · rintro ⟨time, keeps⟩
    exact ⟨fun i => time (pointAt stn.points i), fun i hi j hj => keeps i (List.mem_range.mp hi) j (List.mem_range.mp hj)⟩

/-! ### Points -/

theorem ofUpper_eq_infinity {a : WithTop ℚ} : CxxMath.infinity = ofUpper a ↔ a = ⊤ := by
  cases a with
  | top => exact iff_of_true rfl rfl
  | coe q => exact iff_of_false (fun same => by cases same) WithTop.coe_ne_top

/-- A new row and a new column without bounds. -/
theorem Stores.widen {n : Nat} {d : List (List ExtendedRational)} (stores : Stores n d bounds) :
    Stores (n + 1) (d.map (· ++ [CxxMath.infinity]) ++ [List.replicate (n + 1) CxxMath.infinity]) bounds := by
  refine ⟨by simp [stores.rows], ?_, ?_⟩
  · intro row mem
    rcases List.mem_append.mp mem with mem | mem
    · obtain ⟨old, old_mem, rfl⟩ := List.mem_map.mp mem
      rw [List.length_append, stores.columns old old_mem, List.length_singleton]
    · rw [List.mem_singleton.mp mem, List.length_replicate]
  · intro i j
    rw [← stores.entries i j]
    unfold at'
    rcases Nat.lt_trichotomy i d.length with before | rfl | behind
    · rw [List.getElem?_append_left (by simpa using before), List.getElem?_map, List.getElem?_eq_getElem before]
      simp only [Option.map_some, Option.getD_some]
      rcases Nat.lt_trichotomy j d[i].length with inside | rfl | outside
      · rw [List.getElem?_append_left inside]
      · simp
      · have beyond : (d[i] ++ [CxxMath.infinity]).length ≤ j := by
          rw [List.length_append]
          exact outside
        rw [List.getElem?_eq_none beyond, List.getElem?_eq_none outside.le]
    · rw [List.getElem?_append_right (by simp), List.getElem?_eq_none (Nat.le_refl _)]
      simp only [List.length_map, Nat.sub_self, List.getElem?_cons_zero, Option.getD_some, Option.getD_none,
        List.getElem?_nil, List.getElem?_replicate]
      split <;> rfl
    · have beyond : (d.map (· ++ [CxxMath.infinity]) ++ [List.replicate (n + 1) CxxMath.infinity]).length ≤ i := by
        rw [List.length_append, List.length_map]
        exact behind
      rw [List.getElem?_eq_none beyond, List.getElem?_eq_none behind.le]

theorem Stores.outside {n : Nat} {d : List (List ExtendedRational)} (stores : Stores n d bounds) {i j : Nat}
    (outside : n ≤ i ∨ n ≤ j) : bounds i j = ⊤ := by
  rw [← ofUpper_eq_infinity, ← stores.entries]
  unfold at'
  cases row : d[i]? with
  | none => rfl
  | some row' =>
    have inside : i < n := by
      rw [← stores.rows]
      exact (List.getElem?_eq_some_iff.mp row).1
    rw [Option.getD_some, List.getElem?_eq_none, Option.getD_none]
    rw [stores.columns row' (List.mem_of_getElem? row)]
    omega

theorem pointAt_of_find? (holds : Holds stn bounds) {i : Nat} (found : stn.idx.find? p = some i) :
    i < stn.points.length ∧ pointAt stn.points i = p := by
  have point := (holds.index p i).mp found
  exact ⟨(List.getElem?_eq_some_iff.mp point).1, by rw [pointAt, point, Option.getD_some]⟩

/-- A network for which exactly the times that `P` accepts keep to the bounds. -/
def Accepts (stn : STN ExtendedRational) (P : (String → ℚ) → Prop) : Prop :=
  ∃ bounds, Holds stn bounds ∧ ∀ time, P time ↔ Keeps stn.points bounds time

theorem accepts_empty : Accepts STN.empty fun _ => True := by
  have holds : Holds STN.empty fun _ _ => ⊤ := by
    refine ⟨fun p i => ?_, ⟨rfl, ?_, fun _ _ => rfl⟩, ?_⟩
    · simp [STN.empty]
    · exact List.forall_mem_nil _
    · exact fun i inside => absurd inside (Nat.not_lt_zero i)
  exact ⟨_, holds, fun time => iff_of_true trivial fun i inside => absurd inside (Nat.not_lt_zero i)⟩

theorem holds_addPoint (holds : Holds stn bounds) (fresh : stn.idx.find? p = none) :
    Holds (stn.addPoint p) (bounds.put stn.points.length stn.points.length 0) := by
  have added : stn.addPoint p =
      { points := stn.points ++ [p]
        idx := stn.idx.set p stn.points.length
        dist := STN.setAt (stn.dist.map (· ++ [CxxMath.infinity]) ++
          [List.replicate (stn.points.length + 1) CxxMath.infinity]) stn.points.length stn.points.length 0.0 } := by
    simp [addPoint, fresh]
  have length : (stn.addPoint p).points.length = stn.points.length + 1 := by simp [added]
  refine ⟨fun q i => ?_, ?_, ?_⟩
  · have unknown : ∀ i, stn.points[i]? ≠ some p := fun i point => by
      rw [(holds.index p i).mpr point] at fresh
      cases fresh
    rw [added]
    dsimp only
    rw [OrderedMap.find?_set]
    by_cases same : q = p
    · subst same
      rw [if_pos rfl, Option.some.injEq, List.getElem?_append]
      split
      · rename_i before
        exact iff_of_false (Nat.ne_of_gt before) (unknown i)
      · rename_i behind
        rw [List.getElem?_singleton]
        split <;> rename_i here
        · exact iff_of_true (by omega) rfl
        · exact iff_of_false (by omega) (by simp)
    · rw [if_neg same, holds.index, List.getElem?_append]
      split
      · rfl
      · rename_i behind
        rw [List.getElem?_eq_none (Nat.not_lt.mp behind), List.getElem?_singleton]
        split <;> simp [Ne.symm same]
  · rw [length, added]
    dsimp only
    rw [zero_eq]
    exact holds.stores.widen.setAt (Nat.lt_succ_self _) (Nat.lt_succ_self _) 0
  · intro i inside
    rw [length] at inside
    unfold Bounds.put
    split
    · exact WithTop.zero_ne_top
    · exact holds.diagonal i (by omega)

/-- A new point may have any time. -/
theorem keeps_append {points : List String} (outside : ∀ i j, points.length ≤ i ∨ points.length ≤ j → bounds i j = ⊤)
    (p : String) (time : String → ℚ) :
    Keeps (points ++ [p]) (bounds.put points.length points.length 0) time ↔ Keeps points bounds time := by
  have length : (points ++ [p]).length = points.length + 1 := by simp
  have point : ∀ i < points.length, pointAt (points ++ [p]) i = pointAt points i := by
    intro i inside
    rw [pointAt, pointAt, List.getElem?_append_left inside]
  constructor
  · intro keeps i hi j hj
    have bound := keeps i (by omega) j (by omega)
    rwa [point i hi, point j hj, Bounds.put, if_neg fun here => Nat.ne_of_lt hi here.1] at bound
  · intro keeps i hi j hj
    unfold Bounds.put
    by_cases corner : i = points.length ∧ j = points.length
    · rw [if_pos corner, corner.1, corner.2, sub_self]
      exact le_rfl
    · rw [if_neg corner]
      by_cases inside : i < points.length ∧ j < points.length
      · rw [point i inside.1, point j inside.2]
        exact keeps i inside.1 j inside.2
      · rw [outside i j (by omega)]
        exact le_top

variable {P : (String → ℚ) → Prop}

theorem Accepts.congr {Q : (String → ℚ) → Prop} (accepts : Accepts stn P) (same : ∀ time, Q time ↔ P time) :
    Accepts stn Q := by
  obtain ⟨bounds, holds, kept⟩ := accepts
  exact ⟨bounds, holds, fun time => (same time).trans (kept time)⟩

theorem Accepts.addPoint (accepts : Accepts stn P) (p : String) : Accepts (stn.addPoint p) P := by
  obtain ⟨bounds, holds, kept⟩ := accepts
  cases known : stn.idx.find? p with
  | none =>
    have points : (stn.addPoint p).points = stn.points ++ [p] := by simp [STN.addPoint, known]
    refine ⟨_, holds_addPoint holds known, fun time => ?_⟩
    rw [kept time, points]
    exact (keeps_append (fun i j => holds.stores.outside) p time).symm
  | some i =>
    have same : stn.addPoint p = stn := by simp [STN.addPoint, known]
    rw [same]
    exact ⟨bounds, holds, kept⟩

theorem find?_addPoint_self (stn : STN ExtendedRational) (p : String) : ∃ i, (stn.addPoint p).idx.find? p = some i := by
  cases known : stn.idx.find? p with
  | none => exact ⟨stn.points.length, by simp [addPoint, known]⟩
  | some i => exact ⟨i, by simp [addPoint, known]⟩

theorem find?_addPoint {q : String} {i : Nat} (found : stn.idx.find? q = some i) (p : String) :
    (stn.addPoint p).idx.find? q = some i := by
  cases known : stn.idx.find? p with
  | none =>
    have other : q ≠ p := by
      rintro rfl
      rw [known] at found
      cases found
    simp [addPoint, known, OrderedMap.find?_set_ne _ _ other, found]
  | some j => simp [addPoint, known, found]

/-! ### Constraints -/

theorem lower_eq (holds : Holds stn bounds) (i j : Nat) (bound : WithTop ℚ) :
    stn.lower i j (ofUpper bound) =
      if bound < bounds i j then { stn with dist := STN.setAt stn.dist i j (ofUpper bound) } else stn := by
  unfold lower
  rw [holds.stores.entries, lt_ofUpper]
  simp only [decide_eq_true_eq]

theorem idx_lower (stn : STN ExtendedRational) (i j : Nat) (bound : ExtendedRational) :
    (stn.lower i j bound).idx = stn.idx := by
  unfold lower
  split <;> rfl

theorem keeps_lowered {points : List String} {i j : Nat} (hi : i < points.length) (hj : j < points.length)
    {bound : WithTop ℚ} (lower : bound ≤ bounds i j) (time : String → ℚ) :
    Keeps points (bounds.put i j bound) time ↔
      Keeps points bounds time ∧ ((time (pointAt points j) - time (pointAt points i) : ℚ) : WithTop ℚ) ≤ bound := by
  constructor
  · intro keeps
    refine ⟨fun a ha b hb => (keeps a ha b hb).trans ?_, ?_⟩
    · unfold Bounds.put
      split
      · rename_i here
        rw [here.1, here.2]
        exact lower
      · exact le_rfl
    · have here := keeps i hi j hj
      rwa [Bounds.put, if_pos ⟨rfl, rfl⟩] at here
  · rintro ⟨keeps, below⟩ a ha b hb
    unfold Bounds.put
    split
    · rename_i here
      rw [here.1, here.2]
      exact below
    · exact keeps a ha b hb

theorem Accepts.lower (accepts : Accepts stn P) {a b : String} {i j : Nat} (source : stn.idx.find? a = some i)
    (target : stn.idx.find? b = some j) (bound : WithTop ℚ) :
    Accepts (stn.lower i j (ofUpper bound)) fun time => P time ∧ ((time b - time a : ℚ) : WithTop ℚ) ≤ bound := by
  obtain ⟨bounds, holds, kept⟩ := accepts
  obtain ⟨hi, rfl⟩ := pointAt_of_find? holds source
  obtain ⟨hj, rfl⟩ := pointAt_of_find? holds target
  rw [lower_eq holds]
  by_cases lower : bound < bounds i j
  · rw [if_pos lower]
    refine ⟨_, ⟨holds.index, holds.stores.setAt hi hj bound, ?_⟩, fun time => ?_⟩
    · intro c inside
      unfold Bounds.put
      split
      · exact ne_top_of_lt lower
      · exact holds.diagonal c inside
    · exact (and_congr_left fun _ => kept time).trans (keeps_lowered hi hj lower.le time).symm
  · rw [if_neg lower]
    refine ⟨bounds, holds, fun time => (and_congr_left fun _ => kept time).trans (and_iff_left_of_imp fun keeps => ?_)⟩
    exact (keeps i hi j hj).trans (not_lt.mp lower)

/-- What `lo ≤ target - source ≤ hi` says about the times. -/
def Between (source target : String) (lo : WithBot ℚ) (hi : WithTop ℚ) (time : String → ℚ) : Prop :=
  lo ≤ ((time target - time source : ℚ) : WithBot ℚ) ∧ ((time target - time source : ℚ) : WithTop ℚ) ≤ hi

theorem Accepts.addConstraint (accepts : Accepts stn P) (source target : String) (lo : WithBot ℚ) (hi : WithTop ℚ) :
    Accepts (stn.addConstraint source target (ofLower lo) (ofUpper hi)) fun time =>
      P time ∧ Between source target lo hi time := by
  have points := (accepts.addPoint source).addPoint target
  obtain ⟨i, atSource⟩ := find?_addPoint_self stn source
  have atSource := find?_addPoint atSource target
  obtain ⟨j, atTarget⟩ := find?_addPoint_self (stn.addPoint source) target
  have upper := points.lower atSource atTarget hi
  have both := upper.lower (a := target) (b := source) (by rw [idx_lower]; exact atTarget)
    (by rw [idx_lower]; exact atSource) (turned lo)
  unfold STN.addConstraint
  simp only [atSource, atTarget, Option.getD_some]
  rw [neg_ofLower]
  refine both.congr fun time => ?_
  rw [le_turned_iff, Between, and_assoc]
  exact and_congr_right fun _ => and_comm

theorem Accepts.consistent_iff (accepts : Accepts stn P) : stn.consistent = true ↔ ∃ time, P time := by
  obtain ⟨bounds, holds, kept⟩ := accepts
  rw [holds.consistent_iff]
  exact exists_congr fun time => (kept time).symm

/-! ### Sequences of calls -/

/-- A call on the network. -/
inductive Call where
  | addPoint (p : String)
  | addConstraint (source target : String) (lo : WithBot ℚ) (hi : WithTop ℚ)

/-- The network behind a call. -/
def Call.apply (stn : STN ExtendedRational) : Call → STN ExtendedRational
  | .addPoint p => stn.addPoint p
  | .addConstraint source target lo hi => stn.addConstraint source target (ofLower lo) (ofUpper hi)

/-- What a call asks of the times. -/
def Call.Asks : Call → (String → ℚ) → Prop
  | .addPoint _, _ => True
  | .addConstraint source target lo hi, time => Between source target lo hi time

theorem Accepts.calls (accepts : Accepts stn P) (calls : List Call) :
    Accepts (calls.foldl Call.apply stn) fun time => P time ∧ ∀ c ∈ calls, c.Asks time := by
  induction calls generalizing stn P with
  | nil => exact accepts.congr fun time => and_iff_left fun _ mem => nomatch mem
  | cons c calls ih =>
    have step : Accepts (c.apply stn) fun time => P time ∧ c.Asks time := by
      cases c with
      | addPoint p => exact (accepts.addPoint p).congr fun time => and_iff_left trivial
      | addConstraint source target lo hi => exact accepts.addConstraint source target lo hi
    refine (ih step).congr fun time => ?_
    rw [List.forall_mem_cons, and_assoc]

/-- A network is consistent exactly if its points can have times that keep to every constraint added. -/
theorem consistent_iff_exists_times (calls : List Call) :
    (calls.foldl Call.apply STN.empty).consistent = true ↔ ∃ time : String → ℚ, ∀ c ∈ calls, c.Asks time := by
  rw [(accepts_empty.calls calls).consistent_iff]
  simp only [true_and]

end STN
end WeftWarp
