import Mathlib.Logic.Function.Basic

/-! Regular expressions with captures, matched as ECMA-262 says: a matcher gets the rest of the match as a continuation
    and tries its choices in order, so the first way to match wins.

    `Regex.find` is the leftmost match and `Regex.findAll` the iterator that goes on behind each match. `Takes` says which
    ways there are to match, whatever their order; `run_sound` and `exists_takes` lead from a match to one of them. -/

namespace WeftWarp.EcmaRegex

variable {α ρ : Type}

/-! ### Matchers -/

/-- Patterns, with greedy and lazy repetition. -/
inductive Regex (α : Type) where
  | empty
  | one (p : α → Bool)
  | seq (r s : Regex α)
  | alt (r s : Regex α)
  | star (greedy : Bool) (r : Regex α)
  | group (n : Nat) (r : Regex α)
  | atEnd

/-- How far a match has come: the input behind it, and the texts of the groups it has passed. -/
structure State (α : Type) where
  rest : List α
  captures : Nat → Option (List α)

namespace State

/-- At the start of the input, without captures. -/
def start (input : List α) : State α := ⟨input, fun _ => none⟩

/-- The next element is consumed if it has `p`. -/
def step (p : α → Bool) (x : State α) : Option (State α) :=
  match x.rest with
  | [] => none
  | a :: rest => if p a then some { x with rest := rest } else none

/-- The group `n` has taken what lies between the two states. -/
def capture (x : State α) (n : Nat) (y : State α) : State α :=
  { y with captures := Function.update y.captures n (some (x.rest.take (x.rest.length - y.rest.length))) }

/-- The captures of some groups are forgotten. -/
def clear (ns : List Nat) (x : State α) : State α :=
  { x with captures := fun n => if n ∈ ns then none else x.captures n }

end State

/-- Rounds of a repetition. A round that consumes nothing fails, so there are at most as many as elements are left. -/
def repeatMatcher (m : (State α → Option ρ) → State α → Option ρ) (greedy : Bool) (c : State α → Option ρ) :
    Nat → State α → Option ρ
  | 0, x => c x
  | fuel + 1, x =>
    let again := m (fun y => if y.rest.length < x.rest.length then repeatMatcher m greedy c fuel y else none) x
    if greedy then again.or (c x) else (c x).or again

namespace Regex

/-- The groups of a pattern. -/
def groups : Regex α → List Nat
  | empty | one _ | atEnd => []
  | seq r s | alt r s => r.groups ++ s.groups
  | star _ r => r.groups
  | group n r => n :: r.groups

/-- The matcher of a pattern: it matches and continues, or tries its next choice. -/
def run : Regex α → (State α → Option ρ) → State α → Option ρ
  | empty, c, x => c x
  | one p, c, x => (x.step p).bind c
  | seq r s, c, x => r.run (s.run c) x
  | alt r s, c, x => (r.run c x).or (s.run c x)
  -- The groups inside are forgotten before each round.
  | star greedy r, c, x => repeatMatcher (fun c x => r.run c (x.clear r.groups)) greedy c x.rest.length x
  | group n r, c, x => r.run (fun y => c (x.capture n y)) x
  | atEnd, c, x => if x.rest.isEmpty then c x else none

/-- The state behind the leftmost match. -/
def find (r : Regex α) : List α → Option (State α)
  | [] => r.run some (.start [])
  | a :: input => (r.run some (.start (a :: input))).or (r.find input)

/-- The states behind the matches, one after the other, for an expression that matches no empty text. -/
def findAll (r : Regex α) : Nat → List α → List (State α)
  | 0, _ => []
  | fuel + 1, input =>
    match r.find input with
    | none => []
    | some y => y :: r.findAll fuel y.rest

/-- The alternatives are tried from the first on. -/
def alternatives : List (Regex α) → Regex α
  | [] => one fun _ => false
  | r :: rs => alt r (alternatives rs)

/-- A text, element by element and up to what `key` forgets of an element. -/
def literal {β : Type} [DecidableEq β] (key : α → β) : List β → Regex α
  | [] => empty
  | b :: bs => seq (one fun a => key a = b) (literal key bs)

end Regex

/-! ### Ways to match -/

/-- Matching the expression can lead from the one state to the other. -/
inductive Takes : Regex α → State α → State α → Prop
  | empty (x : State α) : Takes .empty x x
  | one {p : α → Bool} {x y : State α} (taken : x.step p = some y) : Takes (.one p) x y
  | seq {r s : Regex α} {x y z : State α} (first : Takes r x y) (second : Takes s y z) : Takes (.seq r s) x z
  | left {r s : Regex α} {x y : State α} (taken : Takes r x y) : Takes (.alt r s) x y
  | right {r s : Regex α} {x y : State α} (taken : Takes s x y) : Takes (.alt r s) x y
  | stop {greedy : Bool} {r : Regex α} (x : State α) : Takes (.star greedy r) x x
  | round {greedy : Bool} {r : Regex α} {x y z : State α} (taken : Takes r (x.clear r.groups) y)
    (later : Takes (.star greedy r) y z) : Takes (.star greedy r) x z
  | group {n : Nat} {r : Regex α} {x y : State α} (taken : Takes r x y) : Takes (.group n r) x (x.capture n y)
  | atEnd {x : State α} (done : x.rest = []) : Takes .atEnd x x

/-- What a matcher finds it finds by a way to match and its continuation. -/
def Sound (m : (State α → Option ρ) → State α → Option ρ) (way : State α → State α → Prop) : Prop :=
  ∀ {c x found}, m c x = some found → ∃ y, way x y ∧ c y = some found

variable {r : Regex α} {y x : State α}

theorem repeatMatcher_sound {greedy : Bool} {m : (State α → Option ρ) → State α → Option ρ}
    (sound : Sound m fun x => Takes r (x.clear r.groups)) {c : State α → Option ρ} {found : ρ} :
    ∀ {fuel : Nat} {x : State α}, repeatMatcher m greedy c fuel x = some found →
      ∃ y, Takes (.star greedy r) x y ∧ c y = some found
  | 0, x, h => ⟨x, .stop x, h⟩
  | fuel + 1, x, h => by
    have round : m (fun y => if y.rest.length < x.rest.length then repeatMatcher m greedy c fuel y else none) x =
        some found → ∃ y, Takes (.star greedy r) x y ∧ c y = some found := by
      intro again
      obtain ⟨y, taken, later⟩ := sound again
      obtain ⟨-, later⟩ := Option.ite_none_right_eq_some.mp later
      obtain ⟨z, rest, continued⟩ := repeatMatcher_sound sound later
      exact ⟨z, .round taken rest, continued⟩
    rw [repeatMatcher] at h
    cases greedy with
    | true =>
      rcases Option.or_eq_some_iff.mp h with again | ⟨-, stopped⟩
      · exact round again
      · exact ⟨x, .stop x, stopped⟩
    | false =>
      rcases Option.or_eq_some_iff.mp h with stopped | ⟨-, again⟩
      · exact ⟨x, .stop x, stopped⟩
      · exact round again

theorem run_sound (r : Regex α) : Sound (ρ := ρ) r.run (Takes r) := by
  induction r with
  | empty => exact fun h => ⟨_, .empty _, h⟩
  | one p =>
    intro c x found h
    obtain ⟨y, taken, continued⟩ := Option.bind_eq_some_iff.mp h
    exact ⟨y, .one taken, continued⟩
  | seq r s first second =>
    intro c x found h
    obtain ⟨y, taken, later⟩ := first h
    obtain ⟨z, rest, continued⟩ := second later
    exact ⟨z, .seq taken rest, continued⟩
  | alt r s left right =>
    intro c x found h
    rcases Option.or_eq_some_iff.mp h with h | ⟨-, h⟩
    · obtain ⟨y, taken, continued⟩ := left h
      exact ⟨y, .left taken, continued⟩
    · obtain ⟨y, taken, continued⟩ := right h
      exact ⟨y, .right taken, continued⟩
  | star greedy r sound =>
    intro c x found h
    exact repeatMatcher_sound (m := fun c x => r.run c (x.clear r.groups)) (fun inner => sound inner) h
  | group n r sound =>
    intro c x found h
    obtain ⟨y, taken, continued⟩ := sound h
    exact ⟨_, .group taken, continued⟩
  | atEnd =>
    intro c x found h
    obtain ⟨done, continued⟩ := Option.ite_none_right_eq_some.mp h
    exact ⟨x, .atEnd (List.isEmpty_iff.mp done), continued⟩

/-! ### Matches -/

/-- `ys` are the states behind the matches in the input: the leftmost, then the leftmost behind it, to the last. -/
inductive Iterates (r : Regex α) : List α → List (State α) → Prop
  | stop {input : List α} (noMatch : r.find input = none) : Iterates r input []
  | next {input : List α} {y : State α} {ys : List (State α)} (found : r.find input = some y)
    (later : Iterates r y.rest ys) : Iterates r input (y :: ys)

theorem find_takes : ∀ {input : List α}, r.find input = some y →
    ∃ skipped input', input = skipped ++ input' ∧ Takes r (.start input') y
  | [], h => by
    obtain ⟨_, taken, ⟨⟩⟩ := run_sound r h
    exact ⟨[], [], rfl, taken⟩
  | a :: input, h => by
    rcases Option.or_eq_some_iff.mp h with here | ⟨-, later⟩
    · obtain ⟨_, taken, ⟨⟩⟩ := run_sound r here
      exact ⟨[], _, rfl, taken⟩
    · obtain ⟨skipped, input', rfl, taken⟩ := find_takes later
      exact ⟨a :: skipped, input', rfl, taken⟩

theorem Iterates.exists_takes {input : List α} {ys : List (State α)} (h : Iterates r input ys) :
    ∀ y ∈ ys, ∃ input', Takes r (.start input') y := by
  induction h with
  | stop => simp
  | next found _ ih =>
    obtain ⟨-, input', -, taken⟩ := find_takes found
    exact List.forall_mem_cons.mpr ⟨⟨input', taken⟩, ih⟩

/-- If every match consumes something, the iterator comes to its end. -/
theorem iterates_findAll (consumes : ∀ {input y}, Takes r (.start input) y → y.rest.length < input.length) :
    ∀ {fuel : Nat} {input : List α}, input.length ≤ fuel → Iterates r input (r.findAll fuel input) := by
  have shrinks {input : List α} {y : State α} (found : r.find input = some y) : y.rest.length < input.length := by
    obtain ⟨skipped, input', rfl, taken⟩ := find_takes found
    have := consumes taken
    rw [List.length_append]
    omega
  intro fuel
  induction fuel with
  | zero =>
    intro input enough
    refine .stop (Option.eq_none_iff_forall_ne_some.mpr fun y found => ?_)
    have := shrinks found
    omega
  | succ fuel ih =>
    intro input enough
    rw [Regex.findAll]
    cases found : r.find input with
    | none => exact .stop found
    | some y =>
      have := shrinks found
      exact .next found (ih (by omega))

/-! ### What is taken -/

/-- The text between the states, which have the same captures. -/
structure Read (x : State α) (text : List α) (y : State α) : Prop where
  rest : x.rest = text ++ y.rest
  captures : y.captures = x.captures

namespace Read
variable {x y z : State α} {text later : List α}

theorem nil (x : State α) : Read x [] x := ⟨rfl, rfl⟩

theorem append (first : Read x text y) (second : Read y later z) : Read x (text ++ later) z where
  rest := by rw [first.rest, second.rest, List.append_assoc]
  captures := second.captures.trans first.captures

theorem step {p : α → Bool} (taken : x.step p = some y) : ∃ a, p a = true ∧ Read x [a] y := by
  rw [State.step] at taken
  cases rest : x.rest with
  | nil => simp [rest] at taken
  | cons a later =>
    simp only [rest] at taken
    obtain ⟨holds, ⟨⟩⟩ := Option.ite_none_right_eq_some.mp taken
    exact ⟨a, holds, rest, rfl⟩

theorem capture (h : Read x text y) (n : Nat) :
    (x.capture n y).captures = Function.update x.captures n (some text) := by
  have taken : x.rest.take (x.rest.length - y.rest.length) = text := by simp [h.rest]
  rw [State.capture, taken, h.captures]

end Read

theorem takes_one {p : α → Bool} (h : Takes (.one p) x y) : ∃ a, p a = true ∧ Read x [a] y := by
  cases h with
  | one taken => exact Read.step taken

theorem takes_seq {s : Regex α} {z : State α} (h : Takes (.seq r s) x z) : ∃ y, Takes r x y ∧ Takes s y z := by
  cases h with
  | seq first second => exact ⟨_, first, second⟩

theorem takes_group {n : Nat} {z : State α} (h : Takes (.group n r) x z) : ∃ y, Takes r x y ∧ z = x.capture n y := by
  cases h with
  | group taken => exact ⟨_, taken, rfl⟩

theorem takes_star_one {p : α → Bool} {greedy : Bool} (h : Takes (.star greedy (.one p)) x y) :
    ∃ text, (∀ a ∈ text, p a = true) ∧ Read x text y := by
  generalize star : Regex.star greedy (.one p) = r at h
  induction h with
  | stop x => exact ⟨[], by simp, .nil x⟩
  | round taken _ _ ih =>
    cases star
    obtain ⟨a, holds, read⟩ := takes_one taken
    obtain ⟨text, all, later⟩ := ih rfl
    -- The body has no groups, so nothing was forgotten.
    exact ⟨a :: text, List.forall_mem_cons.mpr ⟨holds, all⟩, Read.append ⟨read.rest, read.captures⟩ later⟩
  | _ => cases star

theorem takes_literal {β : Type} [DecidableEq β] {key : α → β} : ∀ {bs : List β} {x y : State α},
    Takes (.literal key bs) x y → ∃ text, text.map key = bs ∧ Read x text y
  | [], x, y, h => by
    cases h with
    | empty => exact ⟨[], rfl, .nil _⟩
  | b :: bs, x, y, h => by
    obtain ⟨_, first, second⟩ := takes_seq h
    obtain ⟨a, same, read⟩ := takes_one first
    obtain ⟨text, rfl, later⟩ := takes_literal second
    exact ⟨a :: text, by rw [List.map_cons, of_decide_eq_true same], read.append later⟩

theorem takes_alternatives {rs : List (Regex α)} (h : Takes (.alternatives rs) x y) : ∃ r ∈ rs, Takes r x y := by
  induction rs with
  | nil =>
    obtain ⟨a, ⟨⟩, -⟩ := takes_one h
  | cons r rs ih =>
    cases h with
    | left taken => exact ⟨r, List.mem_cons_self, taken⟩
    | right taken =>
      obtain ⟨s, mem, taken⟩ := ih taken
      exact ⟨s, List.mem_cons_of_mem r mem, taken⟩

end WeftWarp.EcmaRegex
