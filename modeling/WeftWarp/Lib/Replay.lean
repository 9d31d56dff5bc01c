import Mathlib.Data.List.DropRight
import Mathlib.Data.List.Induction

/-! # Replaying events

A reducer takes a state and an event to a new state and the entries that it logs. Replaying a list of events runs it
from the first event to the last. An invariant of the replay speaks of the events so far, the state and the log. -/

namespace WeftWarp
namespace Replay

variable {σ ε ω : Type}

/-- The loop over the events, from a state and a log. -/
def replay (step : σ → ε → σ × List ω) (acc : σ × List ω) (events : List ε) : σ × List ω :=
  events.foldl (fun acc e => ((step acc.1 e).1, acc.2 ++ (step acc.1 e).2)) acc

section Invariant
variable {step : σ → ε → σ × List ω} {acc : σ × List ω}

theorem replay_concat (events : List ε) (e : ε) :
    replay step acc (events ++ [e]) =
      ((step (replay step acc events).1 e).1,
        (replay step acc events).2 ++ (step (replay step acc events).1 e).2) := by
  rw [replay, List.foldl_append]
  rfl

/-- What holds at the start and is kept by every event holds behind every list of events. -/
theorem invariant (Inv : List ε → σ → List ω → Prop) {s : σ} (init : Inv [] s [])
    (keeps : ∀ events s log e, Inv events s log → Inv (events ++ [e]) (step s e).1 (log ++ (step s e).2))
    (events : List ε) : Inv events (replay step (s, []) events).1 (replay step (s, []) events).2 := by
  induction events using List.reverseRecOn with
  | nil => exact init
  | append_singleton events e ih =>
    rw [replay_concat]
    exact keeps events _ _ e ih

/-- A reducer with the same states whose log shows more. -/
theorem replay_filterMap {ω' : Type} {step' : σ → ε → σ × List ω'} (shown : ω' → Option ω)
    (same : ∀ s e, (step' s e).1 = (step s e).1) (shows : ∀ s e, (step' s e).2.filterMap shown = (step s e).2)
    (s : σ) (events : List ε) :
    (replay step' (s, []) events).1 = (replay step (s, []) events).1 ∧
      (replay step' (s, []) events).2.filterMap shown = (replay step (s, []) events).2 := by
  induction events using List.reverseRecOn with
  | nil => exact ⟨rfl, rfl⟩
  | append_singleton events e ih =>
    rw [replay_concat, replay_concat, ih.1]
    refine ⟨same _ e, ?_⟩
    rw [List.filterMap_append, ih.2, shows]

end Invariant

/-! ### Logs -/

section Logs
variable {α : Type}

/-- Every entry of the log has the property `Q` with the entries before it. -/
def Throughout (Q : List α → α → Prop) (log : List α) : Prop :=
  ∀ front x back, log = front ++ x :: back → Q front x

theorem throughout_nil {Q : List α → α → Prop} : Throughout Q [] := by
  intro front x back split
  simp at split

theorem throughout_concat {Q : List α → α → Prop} {log : List α} {x : α} :
    Throughout Q (log ++ [x]) ↔ Throughout Q log ∧ Q log x := by
  constructor
  · intro all
    refine ⟨fun front y back split => all front y (back ++ [x]) ?_, all log x [] rfl⟩
    rw [split, List.append_assoc, List.cons_append]
  · rintro ⟨all, last⟩ front y back split
    rcases List.eq_nil_or_concat back with rfl | ⟨back, z, rfl⟩
    · obtain ⟨rfl, same⟩ := List.append_inj' split rfl
      obtain rfl := List.singleton_inj.mp same
      exact last
    · rw [List.concat_eq_append, ← List.cons_append, ← List.append_assoc] at split
      exact all front y back (List.append_inj' split rfl).1

/-- The entries behind the last one that `p` accepts. -/
def since (p : α → Bool) (log : List α) : List α := log.rtakeWhile fun x => !p x

@[simp] theorem since_nil (p : α → Bool) : since p [] = [] := List.rtakeWhile_nil _

theorem since_concat (p : α → Bool) (log : List α) (x : α) :
    since p (log ++ [x]) = if p x then [] else since p log ++ [x] := by
  rw [since, List.rtakeWhile_concat, ← since]
  cases p x <;> rfl

theorem mem_since {p : α → Bool} {x : α} {front back : List α} (rejected : p x = false)
    (none : ∀ y ∈ back, p y = false) : x ∈ since p (front ++ x :: back) := by
  induction back using List.reverseRecOn with
  | nil =>
    rw [since_concat, rejected]
    exact List.mem_append_right _ List.mem_cons_self
  | append_singleton back y ih =>
    have inside : x ∈ since p (front ++ x :: back) := ih fun z mem => none z (List.mem_append_left _ mem)
    rw [← List.cons_append, ← List.append_assoc, since_concat, none y (List.mem_append_right _ List.mem_cons_self)]
    exact List.mem_append_left _ inside

end Logs
end Replay
end WeftWarp
