import Mathlib.Data.List.ReduceOption

/-! Consumers that are fed in chunks.

    A consumer looks at what it has received and not yet consumed. It waits for more, goes on with a new state and
    the rest, or halts: it consumes as when it goes on, but looks at the rest only when the next chunk arrives.
    `feed_eq_iff` says when the labels it gives do not depend on how its input is cut, and `Expects.feedAmid` what
    labels there are when others change a part of the state between the chunks. -/

namespace WeftWarp.Feed

variable {σ β ℓ : Type}

/-- The consumer waits for more, drops what is left, or goes on with labels. -/
inductive Round (σ β ℓ : Type) where
  | wait
  | halt (s : σ) (rest : List β)
  | go (s : σ) (rest : List β) (out : List ℓ)

/-- The state and the rest after the round, with its labels; a halt counts as the label `none`. -/
def Round.next : Round σ β ℓ → Option (σ × List β × List (Option ℓ))
  | .wait => none
  | .halt s rest => some (s, rest, [none])
  | .go s rest out => some (s, rest, out.map some)

section Feed
variable (step : σ → List β → Round σ β ℓ)

/-- Rounds until the consumer waits or halts. The fuel bounds their number. -/
def drain : Nat → σ → List β → σ × List β × List ℓ
  | 0, s, buf => (s, buf, [])
  | n + 1, s, buf =>
    match step s buf with
    | .wait => (s, buf, [])
    | .halt s' rest => (s', rest, [])
    | .go s' rest out =>
      let r := drain n s' rest
      (r.1, r.2.1, out ++ r.2.2)

/-- Chunks that arrive one after the other. -/
def feed : σ → List β → List (List β) → σ × List β × List ℓ
  | s, buf, [] => (s, buf, [])
  | s, buf, chunk :: chunks =>
    let r := drain step (buf ++ chunk).length s (buf ++ chunk)
    let r' := feed r.1 r.2.1 chunks
    (r'.1, r'.2.1, r.2.2 ++ r'.2.2)

/-- A condition on every state and buffer at which draining makes a round. -/
def Along (P : σ → List β → Prop) : Nat → σ → List β → Prop
  | 0, _, _ => True
  | n + 1, s, buf =>
    match step s buf with
    | .wait => True
    | .halt _ _ => P s buf
    | .go s' rest _ => P s buf ∧ Along P n s' rest

/-- A round consumes something, does not depend on what comes behind what it consumes, and is not put off. -/
structure Incremental : Prop where
  shrinks : ∀ {s buf s' rest out}, (step s buf).next = some (s', rest, out) → rest.length < buf.length
  append : ∀ {s buf s' rest out}, (step s buf).next = some (s', rest, out) → ∀ more,
    (step s (buf ++ more)).next = some (s', rest ++ more, out)
  prompt : ∀ {s buf b s' rest out}, (step s buf).next = none → (step s (buf ++ [b])).next = some (s', rest, out) →
    rest = []

/-- Any number of rounds, halts passed over. -/
inductive Consumes : σ → List β → List (Option ℓ) → σ → List β → Prop where
  | refl (s : σ) (buf : List β) : Consumes s buf [] s buf
  | round {s s₁ s' : σ} {buf rest rest' : List β} {out items : List (Option ℓ)}
      (h : (step s buf).next = some (s₁, rest, out)) (tail : Consumes s₁ rest items s' rest') :
      Consumes s buf (out ++ items) s' rest'

/-- The consumer has nothing more to do. -/
def Waits (s : σ) (buf : List β) : Prop := (step s buf).next = none

end Feed

variable {step : σ → List β → Round σ β ℓ} {s s' s₀ : σ} {buf rest rest₀ : List β} {items items₀ : List (Option ℓ)}

namespace Consumes

theorem trans {s₁ : σ} {mid : List β} {items' : List (Option ℓ)} (first : Consumes step s buf items s₁ mid)
    (second : Consumes step s₁ mid items' s' rest) : Consumes step s buf (items ++ items') s' rest := by
  induction first with
  | refl => exact second
  | round h _ ih =>
    rw [List.append_assoc]
    exact .round h (ih second)

theorem append (inc : Incremental step) (h : Consumes step s buf items s' rest) (more : List β) :
    Consumes step s (buf ++ more) items s' (rest ++ more) := by
  induction h with
  | refl => exact .refl _ _
  | round h _ ih => exact .round (inc.append h more) ih

theorem eq_of_waits (h : Consumes step s buf items s' rest) (waits : Waits step s buf) :
    items = [] ∧ s' = s ∧ rest = buf := by
  cases h with
  | refl => exact ⟨rfl, rfl, rfl⟩
  | round h _ =>
    rw [Waits, h] at waits
    cases waits

/-- Rounds from the same point follow the same way. -/
theorem follow (h : Consumes step s buf items s' rest) (all : Consumes step s buf items₀ s₀ rest₀)
    (waits : Waits step s₀ rest₀) : ∃ later, items₀ = items ++ later ∧ Consumes step s' rest later s₀ rest₀ := by
  induction h generalizing items₀ with
  | refl => exact ⟨items₀, rfl, all⟩
  | round h _ ih =>
    cases all with
    | refl =>
      rw [Waits, h] at waits
      cases waits
    | round h₀ tail₀ =>
      rw [h] at h₀
      cases h₀
      obtain ⟨later, rfl, follows⟩ := ih tail₀
      exact ⟨later, (List.append_assoc _ _ _).symm, follows⟩

end Consumes

theorem Incremental.waits_nil (inc : Incremental step) (s : σ) : Waits step s [] := by
  cases next : (step s []).next with
  | none => exact next
  | some r => exact absurd (inc.shrinks next) (Nat.not_lt_zero _)

/-- Every input is consumed until the consumer waits. -/
theorem Incremental.exists_waits (inc : Incremental step) (s : σ) (buf : List β) :
    ∃ items s' rest, Consumes step s buf items s' rest ∧ Waits step s' rest := by
  induction hn : buf.length using Nat.strongRecOn generalizing s buf with
  | _ n ih =>
    cases next : (step s buf).next with
    | none => exact ⟨[], s, buf, .refl s buf, next⟩
    | some r =>
      obtain ⟨s₁, mid, out⟩ := r
      obtain ⟨items, s', rest, tail, waits⟩ := ih mid.length (hn ▸ inc.shrinks next) s₁ mid rfl
      exact ⟨out ++ items, s', rest, .round next tail, waits⟩

theorem reduceOption_map_some : ∀ out : List ℓ, (out.map some).reduceOption = out
  | [] => rfl
  | a :: out => by rw [List.map_cons, List.reduceOption_cons_of_some, reduceOption_map_some out]

theorem flatten_singletons : ∀ bytes : List β, (bytes.map fun b => [b]).flatten = bytes
  | [] => rfl
  | b :: bytes => by rw [List.map_cons, List.flatten_cons, flatten_singletons bytes, List.singleton_append]

/-! ### What draining and feeding consume -/

/-- Draining consumes up to the first halt, or until the consumer waits. -/
theorem Incremental.drain_consumes (inc : Incremental step) : ∀ (n : Nat) (s : σ) (buf : List β), buf.length ≤ n →
    ∃ items, Consumes step s buf items (drain step n s buf).1 (drain step n s buf).2.1 ∧
      (drain step n s buf).2.2 = items.reduceOption ∧
      (none ∉ items ∧ Waits step (drain step n s buf).1 (drain step n s buf).2.1 ∨
        ∃ init, items = init ++ [none] ∧ none ∉ init)
  | 0, s, buf, enough => by
    obtain rfl := List.length_eq_zero_iff.mp (Nat.le_zero.mp enough)
    exact ⟨[], .refl s [], rfl, .inl ⟨List.not_mem_nil, inc.waits_nil s⟩⟩
  | n + 1, s, buf, enough => by
    rw [drain]
    cases round : step s buf with
    | wait =>
      refine ⟨[], .refl s buf, rfl, .inl ⟨List.not_mem_nil, ?_⟩⟩
      rw [Waits, round, Round.next]
    | halt s₁ mid =>
      have next : (step s buf).next = some (s₁, mid, [none]) := by rw [round, Round.next]
      exact ⟨[none], .round next (.refl s₁ mid), rfl, .inr ⟨[], rfl, List.not_mem_nil⟩⟩
    | go s₁ mid out =>
      have next : (step s buf).next = some (s₁, mid, out.map some) := by rw [round, Round.next]
      have shorter := inc.shrinks next
      obtain ⟨items, tail, labels, ends⟩ := inc.drain_consumes n s₁ mid (by omega)
      have noHalt : none ∉ out.map some := by simp
      refine ⟨out.map some ++ items, .round next tail, ?_, ?_⟩
      · change out ++ (drain step n s₁ mid).2.2 = _
        rw [labels, List.reduceOption_append, reduceOption_map_some]
      · rcases ends with ⟨absent, waits⟩ | ⟨init, rfl, absent⟩
        · exact .inl ⟨by simp [absent], waits⟩
        · exact .inr ⟨out.map some ++ init, (List.append_assoc _ _ _).symm, by simp [absent]⟩

/-- Draining reaches a point at which the consumer waits, if it does not halt before. -/
theorem Incremental.drain_eq (inc : Incremental step) (consumes : Consumes step s buf items₀ s₀ rest₀)
    (waits : Waits step s₀ rest₀) (noHalt : none ∉ items₀) :
    drain step buf.length s buf = (s₀, rest₀, items₀.reduceOption) := by
  obtain ⟨items, drains, labels, ends⟩ := inc.drain_consumes buf.length s buf (Nat.le_refl _)
  obtain ⟨later, rfl, tail⟩ := drains.follow consumes waits
  rcases ends with ⟨-, stops⟩ | ⟨init, rfl, -⟩
  · obtain ⟨rfl, state, rest⟩ := tail.eq_of_waits stops
    rw [List.append_nil, ← labels, state, rest]
  · simp at noHalt

/-- Feeding consumes the whole input, except what stands behind a halt. -/
theorem Incremental.feed_consumes (inc : Incremental step) : ∀ (chunks : List (List β)) (s : σ) (buf : List β),
    ∃ items, Consumes step s (buf ++ chunks.flatten) items (feed step s buf chunks).1 (feed step s buf chunks).2.1 ∧
      (feed step s buf chunks).2.2 = items.reduceOption ∧
      (Waits step s buf → none ∉ items → Waits step (feed step s buf chunks).1 (feed step s buf chunks).2.1)
  | [], s, buf => by
    refine ⟨[], ?_, rfl, fun waits _ => waits⟩
    rw [List.flatten_nil, List.append_nil]
    exact .refl s buf
  | chunk :: chunks, s, buf => by
    obtain ⟨first, drains, labels, ends⟩ := inc.drain_consumes _ s (buf ++ chunk) (Nat.le_refl _)
    rw [feed]
    generalize drain step (buf ++ chunk).length s (buf ++ chunk) = r at drains labels ends ⊢
    obtain ⟨later, feeds, labels', waits'⟩ := inc.feed_consumes chunks r.1 r.2.1
    refine ⟨first ++ later, ?_, by rw [labels, labels', List.reduceOption_append], fun _ absent => ?_⟩
    · rw [List.flatten_cons, ← List.append_assoc]
      exact (drains.append inc chunks.flatten).trans feeds
    · rw [List.mem_append, not_or] at absent
      rcases ends with ⟨-, waits⟩ | ⟨init, rfl, -⟩
      · exact waits' waits absent.2
      · simp at absent

/-- Fed item by item, the consumer never leaves anything behind a halt. -/
theorem Incremental.feed_singletons (inc : Incremental step) : ∀ (bytes : List β) (s : σ) (buf : List β),
    Waits step s buf →
    Waits step (feed step s buf (bytes.map fun b => [b])).1 (feed step s buf (bytes.map fun b => [b])).2.1
  | [], _, _ => fun waits => waits
  | b :: bytes, s, buf => by
    intro waits
    rw [List.map_cons, feed]
    refine inc.feed_singletons bytes _ _ ?_
    obtain ⟨items, drains, -, ends⟩ := inc.drain_consumes _ s (buf ++ [b]) (Nat.le_refl _)
    generalize drain step (buf ++ [b]).length s (buf ++ [b]) = r at drains ends ⊢
    obtain ⟨s₁, mid, labels⟩ := r
    -- The first round takes everything there is, and no second one follows.
    cases drains with
    | refl =>
      rcases ends with ⟨-, waits⟩ | ⟨init, none, -⟩
      · exact waits
      · simp at none
    | round next tail =>
      obtain rfl := inc.prompt waits next
      obtain ⟨-, state, rest⟩ := tail.eq_of_waits (inc.waits_nil _)
      rw [state, rest]
      exact inc.waits_nil _

theorem Along.of_forall {P : σ → List β → Prop} (always : ∀ s buf, P s buf) : ∀ (n : Nat) (s : σ) (buf : List β),
    Along step P n s buf
  | 0, _, _ => trivial
  | n + 1, s, buf => by
    rw [Along]
    cases step s buf with
    | wait => trivial
    | halt => exact always s buf
    | go s' rest out => exact ⟨always s buf, Along.of_forall always n s' rest⟩

theorem Along.invariant {P : σ → List β → Prop} {I : σ → List ℓ → Prop}
    (round : ∀ s buf s' rest out seen, P s buf → (step s buf).next = some (s', rest, out) → I s seen →
      I s' (seen ++ out.reduceOption)) : ∀ (n : Nat) (s : σ) (buf : List β) (seen : List ℓ),
    Along step P n s buf → I s seen → I (drain step n s buf).1 (seen ++ (drain step n s buf).2.2)
  | 0, s, buf, seen => by
    intro _ start
    rwa [drain, List.append_nil]
  | n + 1, s, buf, seen => by
    intro along start
    rw [Along] at along
    rw [drain]
    cases made : step s buf with
    | wait => simpa using start
    | halt s' rest =>
      simp only [made] at along
      exact round s buf s' rest [none] seen along (by rw [made, Round.next]) start
    | go s' rest out =>
      simp only [made] at along
      have next := round s buf s' rest (out.map some) seen along.1 (by rw [made, Round.next]) start
      rw [reduceOption_map_some] at next
      have later := Along.invariant round n s' rest (seen ++ out) along.2 next
      rwa [List.append_assoc] at later

/-! ### How the input is cut -/

/-- No label comes behind a halt. -/
def Silent (items : List (Option ℓ)) : Prop := ∀ pre post, items = pre ++ none :: post → post.reduceOption = []

theorem Silent.of_noHalt (absent : none ∉ items) : Silent items := by
  rintro pre post rfl
  simp at absent

theorem silent_append_iff {out : List (Option ℓ)} (absent : none ∉ out) : Silent (out ++ items) ↔ Silent items := by
  constructor
  · intro silent pre post split
    exact silent (out ++ pre) post (by rw [split, List.append_assoc])
  · intro silent pre post split
    rcases List.append_eq_append_iff.mp split with ⟨t, rfl, split'⟩ | ⟨t, rfl, split'⟩
    · exact silent t post split'
    · cases t with
      | nil => exact silent [] post split'.symm
      | cons a t =>
        rw [List.cons_append, List.cons.injEq] at split'
        simp [← split'.1] at absent

theorem silent_halt_iff : Silent (none :: items) ↔ items.reduceOption = [] := by
  constructor
  · exact fun silent => silent [] items rfl
  · intro quiet pre post split
    cases pre with
    | nil =>
      cases split
      exact quiet
    | cons a pre =>
      rw [List.cons_append, List.cons.injEq] at split
      rw [split.2, List.reduceOption_append, List.append_eq_nil_iff, List.reduceOption_cons_of_none] at quiet
      exact quiet.2

theorem reduceOption_eq_of_silent {later : List (Option ℓ)} (silent : Silent (items ++ later)) (halted : none ∈ items) :
    (items ++ later).reduceOption = items.reduceOption := by
  obtain ⟨pre, post, rfl⟩ := List.append_of_mem halted
  have behind := silent pre (post ++ later) (by simp)
  rw [List.reduceOption_append] at behind ⊢
  rw [(List.append_eq_nil_iff.mp behind).2, List.append_nil]

section Rounds
variable {s₁ : σ} {out : List (Option ℓ)}
variable (step)

/-- No round from here on gives a label. -/
def Quiet (s : σ) (buf : List β) : Prop :=
  ∀ items s' rest, Consumes step s buf items s' rest → items.reduceOption = []

/-- No round from here on gives a label behind a halt. -/
def Unbroken (s : σ) (buf : List β) : Prop := ∀ items s' rest, Consumes step s buf items s' rest → Silent items

variable {step}

theorem Waits.quiet (waits : Waits step s buf) : Quiet step s buf := by
  intro items s' rest consumes
  rw [(consumes.eq_of_waits waits).1]
  rfl

theorem Waits.unbroken (waits : Waits step s buf) : Unbroken step s buf := by
  intro items s' rest consumes
  rw [(consumes.eq_of_waits waits).1]
  exact .of_noHalt List.not_mem_nil

theorem quiet_iff (next : (step s buf).next = some (s₁, rest, out)) :
    Quiet step s buf ↔ out.reduceOption = [] ∧ Quiet step s₁ rest := by
  constructor
  · intro quiet
    refine ⟨?_, fun items s' rest' tail => ?_⟩
    · have first := quiet _ _ _ (.round next (.refl s₁ rest))
      rwa [List.append_nil] at first
    · have all := quiet _ _ _ (.round next tail)
      rw [List.reduceOption_append] at all
      exact (List.append_eq_nil_iff.mp all).2
  · rintro ⟨first, later⟩ items s' rest' consumes
    cases consumes with
    | refl => rfl
    | round next' tail =>
      rw [next] at next'
      cases next'
      rw [List.reduceOption_append, first, later _ _ _ tail, List.append_nil]

theorem unbroken_iff (next : (step s buf).next = some (s₁, rest, out)) (absent : none ∉ out) :
    Unbroken step s buf ↔ Unbroken step s₁ rest := by
  constructor
  · intro unbroken items s' rest' tail
    exact (silent_append_iff absent).mp (unbroken _ _ _ (.round next tail))
  · intro unbroken items s' rest' consumes
    cases consumes with
    | refl => exact .of_noHalt List.not_mem_nil
    | round next' tail =>
      rw [next] at next'
      cases next'
      exact (silent_append_iff absent).mpr (unbroken _ _ _ tail)

theorem unbroken_halt_iff (next : (step s buf).next = some (s₁, rest, [none])) :
    Unbroken step s buf ↔ Quiet step s₁ rest := by
  constructor
  · intro unbroken items s' rest' tail
    exact silent_halt_iff.mp (unbroken _ _ _ (.round next tail))
  · intro quiet items s' rest' consumes
    cases consumes with
    | refl => exact .of_noHalt List.not_mem_nil
    | round next' tail =>
      rw [next] at next'
      cases next'
      exact silent_halt_iff.mpr (quiet _ _ _ tail)

end Rounds

/-- The labels of an input fed item by item are all there are. -/
theorem Incremental.labels_singletons (inc : Incremental step) {bytes : List β}
    (consumes : Consumes step s bytes items₀ s₀ rest₀) (waits : Waits step s₀ rest₀) :
    (feed step s [] (bytes.map fun b => [b])).2.2 = items₀.reduceOption := by
  obtain ⟨items, feeds, labels, -⟩ := inc.feed_consumes (bytes.map fun b => [b]) s []
  have stops := inc.feed_singletons bytes s [] (inc.waits_nil s)
  rw [List.nil_append, flatten_singletons] at feeds
  obtain ⟨later, rfl, tail⟩ := feeds.follow consumes waits
  obtain ⟨rfl, -, -⟩ := tail.eq_of_waits stops
  rw [labels, List.append_nil]

/-- The labels of an input fed at once are those up to the first halt. -/
theorem Incremental.labels_whole (inc : Incremental step) {bytes : List β}
    (consumes : Consumes step s bytes items₀ s₀ rest₀) (waits : Waits step s₀ rest₀) :
    none ∉ items₀ ∨ ∃ init later, items₀ = init ++ none :: later ∧ none ∉ init ∧
      (feed step s [] [bytes]).2.2 = init.reduceOption := by
  obtain ⟨items, drains, labels, ends⟩ := inc.drain_consumes _ s bytes (Nat.le_refl _)
  obtain ⟨later, rfl, tail⟩ := drains.follow consumes waits
  rcases ends with ⟨absent, stops⟩ | ⟨init, rfl, absent⟩
  · rw [(tail.eq_of_waits stops).1, List.append_nil]
    exact .inl absent
  · refine .inr ⟨init, later, by rw [List.append_assoc, List.singleton_append], absent, ?_⟩
    simp only [feed, List.nil_append, List.append_nil]
    rw [labels, List.reduceOption_append, List.reduceOption_cons_of_none, List.reduceOption_nil, List.append_nil]

/-- When no label comes behind a halt, every cut gives all labels. -/
theorem Incremental.labels_of_silent (inc : Incremental step) {bytes : List β}
    (consumes : Consumes step s bytes items₀ s₀ rest₀) (waits : Waits step s₀ rest₀) (silent : Silent items₀)
    {cut : List (List β)} (flat : cut.flatten = bytes) : (feed step s [] cut).2.2 = items₀.reduceOption := by
  obtain ⟨items, feeds, labels, stops⟩ := inc.feed_consumes cut s []
  rw [List.nil_append, flat] at feeds
  obtain ⟨later, rfl, tail⟩ := feeds.follow consumes waits
  rw [labels]
  by_cases halted : none ∈ items
  · exact (reduceOption_eq_of_silent silent halted).symm
  · obtain ⟨rfl, -, -⟩ := tail.eq_of_waits (stops (inc.waits_nil s) halted)
    rw [List.append_nil]

/-- The labels do not depend on how the input is cut exactly when no label comes behind a halt. -/
theorem Incremental.feed_eq_iff (inc : Incremental step) (s : σ) (bytes : List β) :
    (∀ cut cut' : List (List β), cut.flatten = bytes → cut'.flatten = bytes →
        (feed step s [] cut).2.2 = (feed step s [] cut').2.2) ↔ Unbroken step s bytes := by
  obtain ⟨all, s₀, rest₀, consumes, waits⟩ := inc.exists_waits s bytes
  constructor
  · intro same
    have whole := same [bytes] (bytes.map fun b => [b]) (by simp) (flatten_singletons bytes)
    rw [inc.labels_singletons consumes waits] at whole
    have silent : Silent all := by
      rcases inc.labels_whole consumes waits with absent | ⟨init, later, rfl, absent, labels⟩
      · exact .of_noHalt absent
      · rw [labels, List.reduceOption_append, List.reduceOption_cons_of_none] at whole
        exact (silent_append_iff absent).mpr (silent_halt_iff.mpr (List.self_eq_append_right.mp whole))
    intro items s' rest partway pre post split
    obtain ⟨later, rfl, -⟩ := partway.follow consumes waits
    have behind := silent pre (post ++ later) (by rw [split, List.append_assoc, List.cons_append])
    rw [List.reduceOption_append] at behind
    exact (List.append_eq_nil_iff.mp behind).1
  · intro unbroken cut cut' flat flat'
    have silent := unbroken _ _ _ consumes
    rw [inc.labels_of_silent consumes waits silent flat, inc.labels_of_silent consumes waits silent flat']

/-! ### A part of the state that others change -/

section Amid
variable {τ π : Type}

section
variable (step : τ × π → List β → Round (τ × π) β ℓ)

/-- Chunks that arrive one after the other, each with what others have made of their part of the state. -/
def feedAmid : π → List β → List (τ × List β) → List ℓ
  | _, _, [] => []
  | p, buf, (t, chunk) :: chunks =>
    let r := drain step (buf ++ chunk).length (t, p) (buf ++ chunk)
    r.2.2 ++ feedAmid r.1.2 r.2.1 chunks

/-- All the bytes are consumed without a halt, whatever others do before each round, and the labels are as told. -/
inductive Expects : π → List β → (List ℓ → Prop) → Prop where
  | done {p : π} {P : List ℓ → Prop} (holds : P []) : Expects p [] P
  | round {p : π} {bytes rest : List β} {P : List ℓ → Prop} (next : τ → τ × π) (out : τ → List ℓ)
      (made : ∀ t, (step (t, p) bytes).next = some (next t, rest, (out t).map some))
      (later : ∀ t, Expects (next t).2 rest fun labels => P (out t ++ labels)) : Expects p bytes P

end

variable {step : τ × π → List β → Round (τ × π) β ℓ} {p : π} {bytes more : List β} {P Q : List ℓ → Prop}

namespace Expects

theorem mono (expects : Expects step p bytes P) (weaker : ∀ labels, P labels → Q labels) : Expects step p bytes Q := by
  induction expects generalizing Q with
  | done holds => exact .done (weaker [] holds)
  | round next out made _ ih => exact .round next out made fun t => ih t fun labels => weaker _

/-- The round that is made is the expected one. -/
theorem of_next (inc : Incremental step) (expects : Expects step p bytes P) {t : τ} {s' : τ × π} {rest : List β}
    {out : List (Option ℓ)} (next : (step (t, p) bytes).next = some (s', rest, out)) :
    ∃ labels, out = labels.map some ∧ Expects step s'.2 rest fun later => P (labels ++ later) := by
  cases expects with
  | done =>
    rw [inc.waits_nil (t, p)] at next
    cases next
  | round next' out' made later =>
    rw [made t] at next
    cases next
    exact ⟨out' t, rfl, later t⟩

theorem of_waits (expects : Expects step p bytes P) {t : τ} (waits : Waits step (t, p) bytes) : P [] := by
  cases expects with
  | done holds => exact holds
  | round next out made =>
    rw [Waits, made t] at waits
    cases waits

theorem drain (inc : Incremental step) : ∀ (n : Nat) {t : τ} {p : π} {P : List ℓ → Prop} {buf : List β},
    Expects step p (buf ++ more) P → buf.length ≤ n →
    Waits step (drain step n (t, p) buf).1 (drain step n (t, p) buf).2.1 ∧
      Expects step (drain step n (t, p) buf).1.2 ((drain step n (t, p) buf).2.1 ++ more)
        fun labels => P ((drain step n (t, p) buf).2.2 ++ labels)
  | 0, t, p, P, buf => by
    intro expects enough
    obtain rfl := List.length_eq_zero_iff.mp (Nat.le_zero.mp enough)
    exact ⟨inc.waits_nil _, expects⟩
  | n + 1, t, p, P, buf => by
    intro expects enough
    rw [Feed.drain]
    cases made : step (t, p) buf with
    | wait =>
      refine ⟨?_, expects⟩
      rw [Waits, made, Round.next]
    | halt s' rest =>
      have next : (step (t, p) buf).next = some (s', rest, [none]) := by rw [made, Round.next]
      obtain ⟨labels, halted, -⟩ := expects.of_next inc (inc.append next more)
      cases labels with
      | nil => cases halted
      | cons => cases halted
    | go s' rest out =>
      have next : (step (t, p) buf).next = some (s', rest, out.map some) := by rw [made, Round.next]
      have shorter := inc.shrinks next
      obtain ⟨labels, same, later⟩ := expects.of_next inc (inc.append next more)
      obtain rfl : out = labels := by
        simpa only [reduceOption_map_some] using congrArg List.reduceOption same
      obtain ⟨t', p'⟩ := s'
      obtain ⟨waits, ends⟩ := drain inc n later (by omega)
      refine ⟨waits, ends.mono fun labels holds => ?_⟩
      rwa [List.append_assoc]

theorem feedAmid (inc : Incremental step) : ∀ (chunks : List (τ × List β)) {p : π} {P : List ℓ → Prop} {buf : List β}
    {t : τ}, Waits step (t, p) buf → Expects step p (buf ++ (chunks.map Prod.snd).flatten) P →
    P (feedAmid step p buf chunks)
  | [], p, P, buf, t => by
    intro waits expects
    rw [List.map_nil, List.flatten_nil, List.append_nil] at expects
    exact expects.of_waits waits
  | (t, chunk) :: chunks, p, P, buf, _ => by
    intro _ expects
    rw [List.map_cons, List.flatten_cons, ← List.append_assoc] at expects
    obtain ⟨waits, later⟩ := drain inc _ expects (Nat.le_refl _)
    exact feedAmid inc chunks waits later

end Expects

end Amid

end WeftWarp.Feed
