import Mathlib.Data.List.Induction
import Mathlib.Data.List.Range
import Mathlib.Logic.Equiv.Basic
import WeftWarp.Planner

/-! # Method statistics

The searches share one table of method scores. The order that a call returns depends only on the scores of its key: it
is the declared one, or the first method of the highest positive score has changed places with the first. -/

namespace WeftWarp

/-! ### Scores -/

/-- Every score in the table has `P`. -/
def EveryScore (P : Int → Prop) (stats : Option TwMethodStats) : Prop :=
  ∀ st ∈ stats, ∀ key scores, st.find? key = some scores → ∀ n ∈ scores, P n

/-- The score of a method under a key. -/
def methodScore (stats : Option TwMethodStats) (key : UInt64) (i : Nat) : Int :=
  ((stats.bind (·.find? key)).getD []).getD i 0

theorem getD_growScores (scores : List Int) (n i : Nat) : (growScores scores n).getD i 0 = scores.getD i 0 := by
  rw [growScores, List.getD_eq_getElem?_getD, List.getD_eq_getElem?_getD, List.getElem?_append]
  split
  · rfl
  · next behind =>
    rw [List.getElem?_eq_none (not_lt.mp behind), List.getElem?_replicate]
    split <;> rfl

theorem getD_of_forall {P : Int → Prop} {scores : List Int} (h : ∀ n ∈ scores, P n) (zero : P 0) (i : Nat) :
    P (scores.getD i 0) := by
  rw [List.getD_eq_getElem?_getD]
  cases hi : scores[i]? with
  | none => exact zero
  | some n => exact h n (List.mem_of_getElem? hi)

namespace EveryScore
variable {P : Int → Prop} {st : TwMethodStats}

theorem empty : EveryScore P (some .empty) := by simp [EveryScore]

theorem grow (h : EveryScore P (some st)) (zero : P 0) (key : UInt64) (count : Nat) :
    ∀ n ∈ growScores ((st.find? key).getD []) count, P n := by
  intro n hn
  rcases List.mem_append.mp hn with hn | hn
  · cases hk : st.find? key with
    | none => simp [hk] at hn
    | some scores =>
      rw [hk] at hn
      exact h st rfl key scores hk n hn
  · rw [(List.mem_replicate.mp hn).2]
    exact zero

theorem set (h : EveryScore P (some st)) (key : UInt64) {scores : List Int} (hs : ∀ n ∈ scores, P n) :
    EveryScore P (some (st.set key scores)) := by
  rintro _ ⟨⟩ k ns hk
  rw [OrderedMap.find?_set] at hk
  split at hk
  · cases hk
    exact hs
  · exact h st rfl k ns hk

theorem order {stats : Option TwMethodStats} (h : EveryScore P stats) (zero : P 0) (key : UInt64) (count : Nat) :
    EveryScore P (twOrderMethods key count stats).2 := by
  cases stats with
  | none => exact h
  | some st =>
    rw [twOrderMethods]
    split
    · exact h
    · exact h.set key (h.grow zero key count)

theorem note {stats : Option TwMethodStats} (h : EveryScore P stats) (zero : P 0) (key : UInt64) (i : Nat)
    (success : Bool)
    (noted : ∀ n, P n → P (max (-64) (min 64 (n + if success then 2 else -1)))) :
    EveryScore P (twNoteMethodResult key i success stats) := by
  cases stats with
  | none => exact h
  | some st =>
    have grown := h.grow zero key (i + 1)
    refine h.set key fun n hn => ?_
    rcases List.mem_or_eq_of_mem_set hn with hn | rfl
    · exact grown n hn
    · exact noted _ (getD_of_forall grown zero i)

end EveryScore

/-! ### The loop over the scores -/

/-- `best` is a method of `among` with its score, and no method of `among` has a higher one. -/
structure BestAmong (scores : List Int) (among : List Nat) (best : Nat × Int) : Prop where
  mem : best.1 ∈ among
  score : best.2 = scores.getD best.1 0
  highest : ∀ i ∈ among, scores.getD i 0 ≤ best.2

namespace BestAmong
variable {scores : List Int} {among : List Nat} {best : Nat × Int}

theorem step (h : BestAmong scores among best) (i : Nat) :
    BestAmong scores (among ++ [i]) (if best.2 < scores.getD i 0 then (i, scores.getD i 0) else best) := by
  by_cases better : best.2 < scores.getD i 0
  · rw [if_pos better]
    refine ⟨by simp, rfl, fun j hj => ?_⟩
    rcases List.mem_append.mp hj with hj | hj
    · exact (h.highest j hj).trans better.le
    · rw [List.mem_singleton.mp hj]
  · rw [if_neg better]
    refine ⟨List.mem_append_left _ h.mem, h.score, fun j hj => ?_⟩
    rcases List.mem_append.mp hj with hj | hj
    · exact h.highest j hj
    · rw [List.mem_singleton.mp hj]
      exact not_lt.mp better

theorem loop (h : BestAmong scores among best) (is : List Nat) : BestAmong scores (among ++ is)
    (is.foldl (fun best i => if best.2 < scores.getD i 0 then (i, scores.getD i 0) else best) best) := by
  induction is generalizing among best with
  | nil => rwa [List.append_nil]
  | cons i is ih =>
    rw [List.foldl_cons, List.append_cons]
    exact ih (h.step i)

/-- The loop finds the best of the first `count` methods. -/
theorem bestMethod (scores : List Int) (count : Nat) :
    BestAmong scores (0 :: List.range' 1 (count - 1)) (WeftWarp.bestMethod scores count) := by
  have first : BestAmong scores [0] (0, scores.getD 0 0) := ⟨by simp, rfl, by simp⟩
  exact first.loop _

end BestAmong

/-! ### Orders -/

/-- The declared order with the method `i` and the first one exchanged. -/
def exchanged (count i : Nat) : List Nat := (List.range count).map (Equiv.swap 0 i)

theorem swap_range (count i : Nat) :
    ((List.range count).set 0 i).set i 0 = exchanged count i := by
  refine List.ext_getElem (by simp [exchanged]) fun j hj _ => ?_
  simp only [exchanged, List.getElem_set, List.getElem_range, List.getElem_map, Equiv.swap_apply_def]
  grind

theorem exchanged_perm {count i : Nat} (positive : 0 < count) (inside : i < count) :
    (exchanged count i).Perm (List.range count) := by
  rw [exchanged]
  refine (List.perm_ext_iff_of_nodup (List.nodup_range.map (Equiv.swap 0 i).injective) List.nodup_range).mpr fun j => ?_
  rw [List.mem_map, List.mem_range]
  constructor
  · rintro ⟨k, hk, rfl⟩
    rw [List.mem_range] at hk
    rw [Equiv.swap_apply_def]
    grind
  · intro hj
    refine ⟨Equiv.swap 0 i j, ?_, Equiv.swap_apply_self 0 i j⟩
    rw [List.mem_range, Equiv.swap_apply_def]
    grind

/-- What `tw_order_methods` may return: every method once, in declared order or with a method of the highest score,
    which is positive, brought to the front by one exchange. -/
structure BestFirst (score : Nat → Int) (count : Nat) (order : List Nat) : Prop where
  perm : order.Perm (List.range count)
  swap : order = List.range count ∨ ∃ i, 0 < i ∧ i < count ∧ 0 < score i ∧ (∀ j < count, score j ≤ score i) ∧
    order = exchanged count i

theorem BestFirst.declared (score : Nat → Int) (count : Nat) : BestFirst score count (List.range count) :=
  ⟨.refl _, .inl rfl⟩

/-- What the loop has found is brought to the front. -/
theorem BestAmong.bestFirst {scores : List Int} {count : Nat} {best : Nat × Int} {score : Nat → Int}
    (h : BestAmong scores (0 :: List.range' 1 (count - 1)) best) (several : 1 < count)
    (moved : 0 < best.2 ∧ best.1 ≠ 0) (same : ∀ j, score j = scores.getD j 0) :
    BestFirst score count (((List.range count).set 0 best.1).set best.1 0) := by
  have inside : best.1 < count := by
    rcases List.mem_cons.mp h.mem with zero | later
    · exact absurd zero moved.2
    · have := (List.mem_range'_1.mp later).2
      omega
  have found : best.2 = score best.1 := h.score.trans (same best.1).symm
  have highest : ∀ j < count, score j ≤ score best.1 := by
    intro j hj
    rw [← found, same j]
    refine h.highest j (List.mem_cons.mpr ?_)
    rw [List.mem_range'_1]
    omega
  rw [swap_range]
  exact ⟨exchanged_perm (by omega) inside,
    .inr ⟨best.1, Nat.pos_of_ne_zero moved.2, inside, found ▸ moved.1, highest, rfl⟩⟩

theorem twOrderMethods_bestFirst (key : UInt64) (count : Nat) (stats : Option TwMethodStats) :
    BestFirst (methodScore stats key) count (twOrderMethods key count stats).1 := by
  cases stats with
  | none => exact .declared _ _
  | some st =>
    rw [twOrderMethods]
    by_cases single : count ≤ 1
    · rw [if_pos single]
      exact .declared _ _
    · rw [if_neg single]
      have best := BestAmong.bestMethod (growScores ((st.find? key).getD []) count) count
      dsimp only
      generalize bestMethod (growScores ((st.find? key).getD []) count) count = found at best ⊢
      by_cases moved : 0 < found.2 ∧ found.1 ≠ 0
      · rw [if_pos moved]
        exact best.bestFirst (not_le.mp single) moved fun j => (getD_growScores _ count j).symm
      · rw [if_neg moved]
        exact .declared _ _

/-! ### Sequences of calls -/

/-- A call on the shared statistics. -/
inductive StatsCall where
  | order (key : UInt64) (count : Nat)
  | note (key : UInt64) (methodIdx : Nat) (success : Bool)

namespace StatsCall

/-- The statistics behind a call. -/
def apply (stats : Option TwMethodStats) : StatsCall → Option TwMethodStats
  | order key count => (twOrderMethods key count stats).2
  | note key methodIdx success => twNoteMethodResult key methodIdx success stats

/-- The statistics after the calls, in order, on an empty table. -/
def run (calls : List StatsCall) : Option TwMethodStats := calls.foldl apply (some .empty)

theorem bounded_apply {stats : Option TwMethodStats} (h : EveryScore (fun n => -64 ≤ n ∧ n ≤ 64) stats)
    (call : StatsCall) : EveryScore (fun n => -64 ≤ n ∧ n ≤ 64) (call.apply stats) := by
  cases call with
  | order key count => exact h.order (by decide) key count
  | note key i success => exact h.note (by decide) key i success fun n _ => by omega

theorem bounded_run (calls : List StatsCall) : EveryScore (fun n => -64 ≤ n ∧ n ≤ 64) (run calls) := by
  induction calls using List.reverseRecOn with
  | nil => exact .empty
  | append_singleton calls call ih =>
    rw [run, List.foldl_concat, ← run]
    exact bounded_apply ih call

end StatsCall

/-- After any calls on the shared statistics every score is within its bounds, and the next order loses no method,
    repeats none, and differs from the declared one by at most the exchange that brings a best method to the front. -/
theorem order_after_calls (calls : List StatsCall) :
    EveryScore (fun n => -64 ≤ n ∧ n ≤ 64) (StatsCall.run calls) ∧
    ∀ key count, BestFirst (methodScore (StatsCall.run calls) key) count
      (twOrderMethods key count (StatsCall.run calls)).1 :=
  ⟨StatsCall.bounded_run calls, fun key count => twOrderMethods_bestFirst key count _⟩

end WeftWarp
