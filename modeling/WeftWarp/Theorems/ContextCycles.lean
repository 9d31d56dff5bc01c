import Mathlib.Data.Fintype.Card
import Mathlib.Data.Set.Finite.Basic
import Mathlib.Logic.Relation
import WeftWarp.Context

/-! # Contexts that lead back to themselves

`resolve_context` keeps no record of the files it has come through. It returns exactly if it comes through no context
a second time on its way and every document it opens is an object or null. -/

namespace WeftWarp.JsonldLoader

variable {F : Type}

/-- A context, and the directory its references start from. -/
structure Place (F : Type) where
  ctx : TwValue F
  base : List String

/-- What `resolve_context` does at a place: it ends, it goes on to one other place and merges what it finds there with
    entries of its own, or it merges the places of an array. -/
inductive Step (F : Type) where
  | ended (r : Resolution F)
  | onward (next : Place F) (ctx : Dict F)
  | each (entries : List (TwValue F)) (base : List String)

section Resolve
variable (files : LocalFiles F) (remote : String → Option (TwValue F)) (inspect : TwValue F → String)

/-- One call of `resolve_context`, up to the calls it makes. -/
def Place.step (p : Place F) : Step F :=
  match p.ctx with
  | .nil => .ended (.ok planningDomain)
  | .dict kvs =>
    match importOf kvs with
    | none => .ended (.ok (.writeAll some (kvs.filter (·.1 != "@import")) .empty))
    | some importRef => .onward ⟨importRef, p.base⟩ (kvs.filter (·.1 != "@import"))
  | .string ref =>
    match follow files remote ref p.base with
    | .ended r => .ended r
    | .context ctx base => .onward ⟨ctx, base⟩ []
  | .array entries => .each entries p.base
  | other => .ended (.error ("unsupported @context value: " ++ inspect other))

/-- What becomes of a step, given how the places it names resolve. -/
def Step.finish (resolve : Place F → Option (Resolution F)) : Step F → Option (Resolution F)
  | ended r => some r
  | onward next ctx => (resolve next).map (Resolution.merge ctx)
  | each entries base => mergeEntries (fun entry => resolve ⟨entry, base⟩) entries .empty

/-- Where the calls go. -/
def Step.targets : Step F → List (Place F)
  | ended _ => []
  | onward next _ => [next]
  | each entries base => entries.map (⟨·, base⟩)

/-- The loader at a place. -/
def Place.resolve (fuel : Nat) (p : Place F) : Option (Resolution F) :=
  resolveContext files remote inspect fuel p.ctx p.base

/-- The place resolves to a map. -/
inductive Sound : Place F → Prop
  | ended {p : Place F} {ctx : OrderedMap String (TwValue F)} (step : p.step files remote inspect = .ended (.ok ctx)) :
    Sound p
  | onward {p q : Place F} {ctx : Dict F} (step : p.step files remote inspect = .onward q ctx)
    (sound : Sound q) : Sound p
  | each {p : Place F} {entries : List (TwValue F)} {base : List String}
    (step : p.step files remote inspect = .each entries base) (sound : ∀ e ∈ entries, Sound ⟨e, base⟩) : Sound p

/-- From the one place `resolve_context` comes to the other. -/
inductive Next : Place F → Place F → Prop
  | onward {p q : Place F} {ctx : Dict F} (step : p.step files remote inspect = .onward q ctx) :
    Next p q
  | entry {p : Place F} {before after : List (TwValue F)} {e : TwValue F} {base : List String}
    (step : p.step files remote inspect = .each (before ++ e :: after) base)
    (sound : ∀ b ∈ before, Sound files remote inspect ⟨b, base⟩) : Next p ⟨e, base⟩

/-- The places that `resolve_context` comes to. -/
def Reaches : Place F → Place F → Prop := Relation.ReflTransGen (Next files remote inspect)

end Resolve

/-! ### Entries of an array -/

section Entries
variable {f g : TwValue F → Option (Resolution F)} {entries : List (TwValue F)} {acc : OrderedMap String (TwValue F)}
  {r : Resolution F}
variable {e : TwValue F}

theorem mergeEntries_cons_ok {ctx : OrderedMap String (TwValue F)} (found : f e = some (.ok ctx)) :
    mergeEntries f (e :: entries) acc = mergeEntries f entries (acc.update ctx) := by
  rw [mergeEntries, found]

theorem mergeEntries_cons_halted (halted : ∀ ctx, f e ≠ some (.ok ctx)) :
    mergeEntries f (e :: entries) acc = f e := by
  rw [mergeEntries]
  cases found : f e with
  | none => rfl
  | some r =>
    cases r with
    | ok ctx => exact absurd found (halted ctx)
    | error reason => rfl
    | raised => rfl

theorem mergeEntries_mono (le : ∀ e r, f e = some r → g e = some r) (h : mergeEntries f entries acc = some r) :
    mergeEntries g entries acc = some r := by
  induction entries generalizing acc with
  | nil => exact h
  | cons e entries ih =>
    by_cases found : ∃ ctx, f e = some (.ok ctx)
    · obtain ⟨ctx, found⟩ := found
      rw [mergeEntries_cons_ok found] at h
      rw [mergeEntries_cons_ok (le _ _ found)]
      exact ih h
    · have halted : ∀ ctx, f e ≠ some (.ok ctx) := fun ctx same => found ⟨ctx, same⟩
      rw [mergeEntries_cons_halted halted] at h
      have later := le _ _ h
      have stops : ∀ ctx, g e ≠ some (.ok ctx) := fun ctx same =>
        halted ctx (h.trans (later.symm.trans same))
      rw [mergeEntries_cons_halted stops, later]

/-- The merge succeeds if every entry does. -/
theorem mergeEntries_ok (all : ∀ e ∈ entries, ∃ ctx, f e = some (.ok ctx)) :
    ∃ ctx, mergeEntries f entries acc = some (.ok ctx) := by
  induction entries generalizing acc with
  | nil => exact ⟨acc, rfl⟩
  | cons e entries ih =>
    obtain ⟨⟨ctx, found⟩, rest⟩ := List.forall_mem_cons.mp all
    rw [mergeEntries_cons_ok found]
    exact ih rest

theorem ok_of_mergeEntries {ctx : OrderedMap String (TwValue F)} (h : mergeEntries f entries acc = some (.ok ctx)) :
    ∀ e ∈ entries, ∃ ctx, f e = some (.ok ctx) := by
  induction entries generalizing acc with
  | nil => simp
  | cons e entries ih =>
    by_cases found : ∃ ctx, f e = some (.ok ctx)
    · obtain ⟨resolved, found⟩ := found
      rw [mergeEntries_cons_ok found] at h
      exact List.forall_mem_cons.mpr ⟨⟨resolved, found⟩, ih h⟩
    · rw [mergeEntries_cons_halted fun ctx same => found ⟨ctx, same⟩] at h
      exact absurd ⟨ctx, h⟩ found

theorem mergeEntries_reaches {before after : List (TwValue F)}
    (ok : ∀ b ∈ before, ∀ r, f b = some r → ∃ ctx, r = .ok ctx)
    (h : mergeEntries f (before ++ e :: after) acc = some r) :
    ∃ r', f e = some r' ∧ (r' = .raised → r = .raised) := by
  induction before generalizing acc with
  | nil =>
    by_cases found : ∃ ctx, f e = some (.ok ctx)
    · obtain ⟨ctx, found⟩ := found
      exact ⟨.ok ctx, found, fun raised => by cases raised⟩
    · rw [List.nil_append, mergeEntries_cons_halted fun ctx same => found ⟨ctx, same⟩] at h
      exact ⟨r, h, id⟩
  | cons b before ih =>
    obtain ⟨first, rest⟩ := List.forall_mem_cons.mp ok
    rw [List.cons_append] at h
    by_cases found : ∃ ctx, f b = some (.ok ctx)
    · obtain ⟨ctx, found⟩ := found
      rw [mergeEntries_cons_ok found] at h
      exact ih rest h
    · rw [mergeEntries_cons_halted fun ctx same => found ⟨ctx, same⟩] at h
      obtain ⟨ctx, rfl⟩ := first r h
      exact absurd ⟨ctx, h⟩ found

end Entries

/-! ### Steps -/

section Fuel
variable {files : LocalFiles F} {remote : String → Option (TwValue F)} {inspect : TwValue F → String} {p q : Place F}
  {r r' : Resolution F} {n m : Nat}

/-- A step ends, goes to the import of a map or to where a text leads, or goes through an array. Only a text raises. -/
theorem step_cases (files : LocalFiles F) (remote : String → Option (TwValue F)) (inspect : TwValue F → String)
    (p : Place F) :
    (∃ r, p.step files remote inspect = .ended r ∧
      (r = .raised → ∃ ref, p.ctx = .string ref ∧ follow files remote ref p.base = .ended .raised)) ∨
    (∃ kvs importRef, p.ctx = .dict kvs ∧ importOf kvs = some importRef ∧
      p.step files remote inspect = .onward ⟨importRef, p.base⟩ (kvs.filter (·.1 != "@import"))) ∨
    (∃ ref ctx base, p.ctx = .string ref ∧ follow files remote ref p.base = .context ctx base ∧
      p.step files remote inspect = .onward ⟨ctx, base⟩ []) ∨
    ∃ entries, p.ctx = .array entries ∧ p.step files remote inspect = .each entries p.base := by
  obtain ⟨ctx, base⟩ := p
  cases ctx with
  | dict kvs =>
    cases imports : importOf kvs with
    | none =>
      refine .inl ⟨.ok (.writeAll some (kvs.filter (·.1 != "@import")) .empty), ?_, fun raised => by cases raised⟩
      simp only [Place.step, imports]
    | some importRef => exact .inr (.inl ⟨kvs, importRef, rfl, imports, by simp only [Place.step, imports]⟩)
  | string ref =>
    cases leads : follow files remote ref base with
    | ended r => exact .inl ⟨r, by simp only [Place.step, leads], fun raised => ⟨ref, rfl, raised ▸ leads⟩⟩
    | context ctx base' => exact .inr (.inr (.inl ⟨ref, ctx, base', rfl, leads, by simp only [Place.step, leads]⟩))
  | array entries => exact .inr (.inr (.inr ⟨entries, rfl, rfl⟩))
  | _ => exact .inl ⟨_, rfl, fun raised => by cases raised⟩

theorem Next.mem_targets (next : Next files remote inspect p q) : q ∈ (p.step files remote inspect).targets := by
  cases next with
  | onward step =>
    rw [step]
    exact List.mem_singleton_self q
  | entry step _ =>
    rw [step]
    exact List.mem_map.mpr ⟨_, List.mem_append_right _ List.mem_cons_self, rfl⟩

/-! ### Fuel -/

theorem resolve_succ : p.resolve files remote inspect (n + 1) =
    (p.step files remote inspect).finish (Place.resolve files remote inspect n) := by
  have unmerged : Resolution.merge ([] : Dict F) = id := by
    funext r
    cases r <;> rfl
  obtain ⟨ctx, base⟩ := p
  cases ctx with
  | dict kvs =>
    simp only [Place.resolve, resolveContext, Place.step]
    cases importOf kvs <;> rfl
  | string ref =>
    simp only [Place.resolve, resolveContext, Place.step]
    cases follow files remote ref base with
    | ended r => rfl
    | context ctx base => simp only [Step.finish, unmerged, Option.map_id, id, Place.resolve]
  | _ => rfl

theorem resolve_of_ended (step : p.step files remote inspect = .ended r) :
    p.resolve files remote inspect (n + 1) = some r := by
  rw [resolve_succ, step, Step.finish]

theorem resolve_of_onward {ctx : Dict F} (step : p.step files remote inspect = .onward q ctx) :
    p.resolve files remote inspect (n + 1) = (q.resolve files remote inspect n).map (Resolution.merge ctx) := by
  rw [resolve_succ, step, Step.finish]

variable {base : List String} {ref : String} {entries : List (TwValue F)} {start : Place F}

theorem resolve_of_each (step : p.step files remote inspect = .each entries base) :
    p.resolve files remote inspect (n + 1) =
      mergeEntries (fun e => Place.resolve files remote inspect n ⟨e, base⟩) entries .empty := by
  rw [resolve_succ, step, Step.finish]

theorem resolve_zero : p.resolve files remote inspect 0 = none := by
  rw [Place.resolve, resolveContext]

theorem resolve_mono_succ (h : p.resolve files remote inspect n = some r) :
    p.resolve files remote inspect (n + 1) = some r := by
  induction n generalizing p r with
  | zero =>
    rw [resolve_zero] at h
    cases h
  | succ n ih =>
    cases step : p.step files remote inspect with
    | ended r' =>
      rw [resolve_of_ended step] at h
      rwa [resolve_of_ended step]
    | onward q ctx =>
      rw [resolve_of_onward step] at h
      obtain ⟨found, resolved, rfl⟩ := Option.map_eq_some_iff.mp h
      rw [resolve_of_onward step, ih resolved, Option.map_some]
    | each entries base =>
      rw [resolve_of_each step] at h
      rw [resolve_of_each step]
      exact mergeEntries_mono (fun e r found => ih found) h

theorem resolve_mono (h : p.resolve files remote inspect n = some r) (le : n ≤ m) :
    p.resolve files remote inspect m = some r := by
  induction le with
  | refl => exact h
  | step _ ih => exact resolve_mono_succ ih

theorem resolve_unique (h : p.resolve files remote inspect n = some r) (h' : p.resolve files remote inspect m = some r') :
    r = r' := by
  have left := resolve_mono h (Nat.le_max_left n m)
  rw [resolve_mono h' (Nat.le_max_right n m)] at left
  exact (Option.some.inj left).symm

theorem sound_of_resolve {ctx : OrderedMap String (TwValue F)} (h : p.resolve files remote inspect n = some (.ok ctx)) :
    Sound files remote inspect p := by
  induction n generalizing p ctx with
  | zero =>
    rw [resolve_zero] at h
    cases h
  | succ n ih =>
    cases step : p.step files remote inspect with
    | ended r =>
      rw [resolve_of_ended step] at h
      cases h
      exact .ended step
    | onward q own =>
      rw [resolve_of_onward step] at h
      obtain ⟨found, resolved, merged⟩ := Option.map_eq_some_iff.mp h
      cases found with
      | ok imported => exact .onward step (ih resolved)
      | error reason => cases merged
      | raised => cases merged
    | each entries base =>
      rw [resolve_of_each step] at h
      refine .each step fun e mem => ?_
      obtain ⟨_, found⟩ := ok_of_mergeEntries h e mem
      exact ih found

theorem common_fuel (all : ∀ e ∈ entries, ∃ n ctx, Place.resolve files remote inspect n ⟨e, base⟩ = some (.ok ctx)) :
    ∃ n, ∀ e ∈ entries, ∃ ctx, Place.resolve files remote inspect n ⟨e, base⟩ = some (.ok ctx) := by
  induction entries with
  | nil => exact ⟨0, by simp⟩
  | cons e entries ih =>
    obtain ⟨⟨n, ctx, found⟩, rest⟩ := List.forall_mem_cons.mp all
    obtain ⟨m, others⟩ := ih rest
    refine ⟨max n m, List.forall_mem_cons.mpr ⟨⟨ctx, resolve_mono found (Nat.le_max_left n m)⟩, fun e mem => ?_⟩⟩
    obtain ⟨ctx, found⟩ := others e mem
    exact ⟨ctx, resolve_mono found (Nat.le_max_right n m)⟩

theorem Sound.resolve (h : Sound files remote inspect p) : ∃ n ctx, p.resolve files remote inspect n = some (.ok ctx) := by
  induction h with
  | ended step => exact ⟨1, _, resolve_of_ended step⟩
  | @onward p q own step _ ih =>
    obtain ⟨n, ctx, found⟩ := ih
    refine ⟨n + 1, .writeAll some own ctx, ?_⟩
    rw [resolve_of_onward step, found]
    rfl
  | each step _ ih =>
    obtain ⟨n, all⟩ := common_fuel ih
    obtain ⟨ctx, merged⟩ := mergeEntries_ok all
    exact ⟨n + 1, ctx, (resolve_of_each step).trans merged⟩

/-! ### Runs that end -/

theorem Next.resolve (next : Next files remote inspect p q) (h : p.resolve files remote inspect n = some r) :
    ∃ m < n, ∃ r', q.resolve files remote inspect m = some r' ∧ (r' = .raised → r = .raised) := by
  cases n with
  | zero =>
    rw [resolve_zero] at h
    cases h
  | succ n =>
    cases next with
    | onward step =>
      rw [resolve_of_onward step] at h
      obtain ⟨found, resolved, rfl⟩ := Option.map_eq_some_iff.mp h
      exact ⟨n, Nat.lt_succ_self n, found, resolved, fun raised => by rw [raised, Resolution.merge]⟩
    | @entry before after e base step sound =>
      rw [resolve_of_each step] at h
      have ok : ∀ b ∈ before, ∀ r, Place.resolve files remote inspect n ⟨b, base⟩ = some r → ∃ ctx, r = .ok ctx := by
        intro b mem r found
        obtain ⟨_, ctx, resolved⟩ := (sound b mem).resolve
        exact ⟨ctx, resolve_unique found resolved⟩
      obtain ⟨r', found, raised⟩ := mergeEntries_reaches ok h
      exact ⟨n, Nat.lt_succ_self n, r', found, raised⟩

theorem reaches_resolve (reaches : Reaches files remote inspect p q) (h : p.resolve files remote inspect n = some r) :
    ∃ m r', q.resolve files remote inspect m = some r' ∧ (r' = .raised → r = .raised) := by
  induction reaches with
  | refl => exact ⟨n, r, h, id⟩
  | tail _ next ih =>
    obtain ⟨m, r', found, raised⟩ := ih
    obtain ⟨k, -, r'', later, raised'⟩ := next.resolve found
    exact ⟨k, r'', later, fun same => raised (raised' same)⟩

theorem leads_resolve (leads : Relation.TransGen (Next files remote inspect) p q)
    (h : p.resolve files remote inspect n = some r) : ∃ m < n, ∃ r', q.resolve files remote inspect m = some r' := by
  induction leads with
  | single next =>
    obtain ⟨m, less, r', found, -⟩ := next.resolve h
    exact ⟨m, less, r', found⟩
  | tail _ next ih =>
    obtain ⟨m, less, r', found⟩ := ih
    obtain ⟨k, less', r'', later, -⟩ := next.resolve found
    exact ⟨k, less'.trans less, r'', later⟩

/-- A place that leads back to itself resolves with no fuel. -/
theorem not_leads_self (h : p.resolve files remote inspect n = some r) :
    ¬Relation.TransGen (Next files remote inspect) p p := by
  intro leads
  induction n using Nat.strong_induction_on generalizing r with
  | _ n ih =>
    obtain ⟨m, less, r', found⟩ := leads_resolve leads h
    exact ih m less found

/-! ### Runs without a way back -/

/-- The resolution ends with a map or an error. -/
def Returns (files : LocalFiles F) (remote : String → Option (TwValue F)) (inspect : TwValue F → String) (p : Place F) : Prop :=
  ∃ n r, p.resolve files remote inspect n = some r ∧ r ≠ .raised

/-- Entries behind others that resolve to maps. -/
theorem returns_entries
    (each : ∀ before e after, entries = before ++ e :: after → (∀ b ∈ before, Sound files remote inspect ⟨b, base⟩) →
      Returns files remote inspect ⟨e, base⟩) (acc : OrderedMap String (TwValue F)) :
    ∃ n r, mergeEntries (fun e => Place.resolve files remote inspect n ⟨e, base⟩) entries acc = some r ∧ r ≠ .raised := by
  induction entries generalizing acc with
  | nil => exact ⟨0, .ok acc, rfl, fun raised => by cases raised⟩
  | cons e entries ih =>
    obtain ⟨n, r, found, calm⟩ := each [] e entries rfl (by simp)
    cases r with
    | ok ctx =>
      have sound := sound_of_resolve found
      have rest := ih (fun before e' after same soundBefore =>
        each (e :: before) e' after (by rw [same, List.cons_append]) (List.forall_mem_cons.mpr ⟨sound, soundBefore⟩))
      obtain ⟨m, r, merged, calm⟩ := rest (acc.update ctx)
      have here := resolve_mono found (Nat.le_max_left n m)
      refine ⟨max n m, r, ?_, calm⟩
      rw [mergeEntries_cons_ok here]
      exact mergeEntries_mono (fun e r found => resolve_mono found (Nat.le_max_right n m)) merged
    | error reason =>
      refine ⟨n, .error reason, ?_, calm⟩
      rw [mergeEntries_cons_halted, found]
      intro ctx same
      rw [found] at same
      cases same
    | raised => exact absurd rfl calm

/-- A place returns if the places that are come to from it do and it does not raise itself. -/
theorem returns_of_next (calm : p.step files remote inspect ≠ .ended .raised)
    (later : ∀ q, Next files remote inspect p q → Returns files remote inspect q) : Returns files remote inspect p := by
  cases step : p.step files remote inspect with
  | ended r =>
    refine ⟨1, r, resolve_of_ended step, ?_⟩
    rintro rfl
    exact calm step
  | onward q ctx =>
    obtain ⟨n, r, found, calm⟩ := later q (.onward step)
    refine ⟨n + 1, r.merge ctx, by rw [resolve_of_onward step, found, Option.map_some], ?_⟩
    cases r with
    | raised => exact absurd rfl calm
    | ok imported => exact fun raised => by cases raised
    | error reason => exact fun raised => by cases raised
  | each entries base =>
    have each : ∀ before e after, entries = before ++ e :: after →
        (∀ b ∈ before, Sound files remote inspect ⟨b, base⟩) → Returns files remote inspect ⟨e, base⟩ := by
      rintro before e after rfl sound
      exact later _ (.entry step sound)
    obtain ⟨n, r, merged, calm⟩ := returns_entries each .empty
    exact ⟨n + 1, r, (resolve_of_each step).trans merged, calm⟩

/-- Every reference that is come to is a file of the set. -/
def LocalOnly (files : LocalFiles F) (remote : String → Option (TwValue F)) (inspect : TwValue F → String)
    (start : Place F) : Prop :=
  ∀ p, Reaches files remote inspect start p → ∀ ref, p.ctx = .string ref → (files.find? (joinPath p.base ref)).isSome

/-- Every document that is opened is an object or null. -/
def ObjectsOnly (files : LocalFiles F) (remote : String → Option (TwValue F)) (inspect : TwValue F → String)
    (start : Place F) : Prop :=
  ∀ p, Reaches files remote inspect start p → ∀ ref doc, p.ctx = .string ref →
    files.find? (joinPath p.base ref) = some (.ok doc) → (contextOf doc).isSome

/-- The contexts of the files. -/
def filePlaces (files : LocalFiles F) : List (Place F) :=
  files.entries.filterMap fun file => (file.2.toOption.bind contextOf).map fun ctx => ⟨ctx, file.1.dropLast⟩

theorem follow_ok {doc : TwValue F} (found : files.find? (joinPath base ref) = some (.ok doc)) :
    follow files remote ref base =
      (contextOf doc).elim (.ended .raised) fun ctx => .context ctx (joinPath base ref).dropLast := by
  simp only [follow, found]
  cases contextOf doc <;> rfl

theorem follow_error {reason : String} (found : files.find? (joinPath base ref) = some (.error reason)) :
    follow files remote ref base = .ended (.error reason) := by
  simp only [follow, found]

theorem follow_missing (missing : files.find? (joinPath base ref) = none) :
    follow files remote ref base = (remote ref).elim
      (.ended (.ok (OrderedMap.empty.set "@import" (.string ref)))) fun ctx => .context ctx base := by
  simp only [follow, missing]
  cases remote ref <;> rfl

theorem follow_context {ctx : TwValue F} {base' : List String} (isFile : (files.find? (joinPath base ref)).isSome)
    (leads : follow files remote ref base = .context ctx base') : (⟨ctx, base'⟩ : Place F) ∈ filePlaces files := by
  obtain ⟨content, found⟩ := Option.isSome_iff_exists.mp isFile
  cases content with
  | error reason =>
    rw [follow_error found] at leads
    cases leads
  | ok doc =>
    rw [follow_ok found] at leads
    cases reads : contextOf doc with
    | none =>
      rw [reads] at leads
      cases leads
    | some read =>
      rw [reads] at leads
      cases leads
      refine List.mem_filterMap.mpr ⟨_, OrderedMap.mem_of_find? found, ?_⟩
      simp [Except.toOption, reads]

theorem follow_raised (raises : follow files remote ref base = .ended .raised) :
    ∃ doc, files.find? (joinPath base ref) = some (.ok doc) ∧ contextOf doc = none := by
  cases found : files.find? (joinPath base ref) with
  | none =>
    rw [follow_missing found] at raises
    cases atRemote : remote ref <;> rw [atRemote] at raises <;> cases raises
  | some content =>
    cases content with
    | error reason =>
      rw [follow_error found] at raises
      cases raises
    | ok doc =>
      refine ⟨doc, rfl, ?_⟩
      rw [follow_ok found] at raises
      cases reads : contextOf doc with
      | none => rfl
      | some read =>
        rw [reads] at raises
        cases raises

theorem step_ne_raised (objects : ObjectsOnly files remote inspect start)
    (reached : Reaches files remote inspect start p) : p.step files remote inspect ≠ .ended .raised := by
  intro step
  rcases step_cases files remote inspect p with
    ⟨r, here, raises⟩ | ⟨_, _, -, -, here⟩ | ⟨_, _, _, -, -, here⟩ | ⟨_, -, here⟩ <;> rw [here] at step <;> cases step
  obtain ⟨ref, isRef, leads⟩ := raises rfl
  obtain ⟨doc, found, raises⟩ := follow_raised leads
  have isObject := objects p reached ref doc isRef found
  rw [raises] at isObject
  cases isObject

theorem sizeOf_importOf {kvs : Dict F} {importRef : TwValue F} (imports : importOf kvs = some importRef) :
    sizeOf importRef < sizeOf (TwValue.dict kvs) := by
  obtain ⟨v, found, same⟩ := Option.bind_eq_some_iff.mp imports
  have inside := List.sizeOf_lt_of_mem (mem_of_lookup found)
  obtain rfl : v = importRef := by
    cases v <;> cases same <;> rfl
  simp only [TwValue.dict.sizeOf_spec, Prod.mk.sizeOf_spec] at inside ⊢
  omega

/-- From a place the resolution comes to a smaller context in the same document, or to the context of a file. -/
theorem Next.smaller_or_file (localOnly : LocalOnly files remote inspect start)
    (reached : Reaches files remote inspect start p) (next : Next files remote inspect p q) :
    sizeOf q.ctx < sizeOf p.ctx ∨ q ∈ filePlaces files := by
  have target := next.mem_targets
  rcases step_cases files remote inspect p with ⟨r, step, -⟩ | ⟨kvs, importRef, isMap, imports, step⟩ |
    ⟨ref, ctx, base, isRef, leads, step⟩ | ⟨entries, isArray, step⟩ <;> rw [step] at target
  · cases target
  · obtain rfl := List.mem_singleton.mp target
    rw [isMap]
    exact .inl (sizeOf_importOf imports)
  · obtain rfl := List.mem_singleton.mp target
    exact .inr (follow_context (localOnly p reached ref isRef) leads)
  · obtain ⟨e, inside, rfl⟩ := List.mem_map.mp target
    have smaller : sizeOf e < sizeOf entries := List.sizeOf_lt_of_mem inside
    refine .inl (smaller.trans ?_)
    rw [isArray, TwValue.array.sizeOf_spec]
    omega

/-- Inside one document the contexts get smaller. -/
theorem returns_of_files (localOnly : LocalOnly files remote inspect start)
    (objects : ObjectsOnly files remote inspect start) (reached : Reaches files remote inspect start p)
    (later : ∀ q ∈ filePlaces files, Relation.TransGen (Next files remote inspect) p q → Returns files remote inspect q) :
    Returns files remote inspect p := by
  induction size : sizeOf p.ctx using Nat.strong_induction_on generalizing p with
  | _ n ih =>
    subst size
    refine returns_of_next (step_ne_raised objects reached) fun q next => ?_
    rcases next.smaller_or_file localOnly reached with smaller | isFile
    · exact ih _ smaller (reached.tail next) (fun q' isFile leads => later q' isFile (.head next leads)) rfl
    · exact later q isFile (.single next)

theorem returns_of_acyclic (localOnly : LocalOnly files remote inspect start)
    (objects : ObjectsOnly files remote inspect start)
    (acyclic : ∀ p, Reaches files remote inspect start p → ¬Relation.TransGen (Next files remote inspect) p p) :
    Returns files remote inspect start := by
  -- Among the finitely many contexts of files, what is come to later is smaller.
  have finite : Finite { q // q ∈ filePlaces files ∧ Reaches files remote inspect start q } :=
    Set.Finite.subset (List.finite_toSet (filePlaces files)) fun q h => h.1
  let Later (a b : { q // q ∈ filePlaces files ∧ Reaches files remote inspect start q }) : Prop :=
    Relation.TransGen (Next files remote inspect) b.1 a.1
  have trans : IsTrans _ Later := ⟨fun a b c ab bc => bc.trans ab⟩
  have irrefl : Std.Irrefl Later := ⟨fun a => acyclic a.1 a.2.2⟩
  have wellFounded : WellFounded Later := Finite.wellFounded_of_trans_of_irrefl Later
  have fileReturns : ∀ a : { q // q ∈ filePlaces files ∧ Reaches files remote inspect start q },
      Returns files remote inspect a.1 := by
    intro a
    induction a using wellFounded.induction with
    | _ a ih =>
      refine returns_of_files localOnly objects a.2.2 fun q isFile leads => ?_
      exact ih ⟨q, isFile, a.2.2.trans leads.to_reflTransGen⟩ leads
  refine returns_of_files localOnly objects .refl fun q isFile leads => ?_
  exact fileReturns ⟨q, isFile, leads.to_reflTransGen⟩

/-- If every reference is a local file, `resolve_context` returns a map or an error exactly if no context it comes to
    leads back to itself and every document it opens is an object or null. -/
theorem resolveContext_returns_iff (files : LocalFiles F) (remote : String → Option (TwValue F))
    (inspect : TwValue F → String) (ctx : TwValue F) (base : List String)
    (localOnly : LocalOnly files remote inspect ⟨ctx, base⟩) :
    (∃ fuel, (∃ merged, resolveContext files remote inspect fuel ctx base = some (.ok merged)) ∨
        ∃ reason, resolveContext files remote inspect fuel ctx base = some (.error reason)) ↔
      (∀ p, Reaches files remote inspect ⟨ctx, base⟩ p → ¬Relation.TransGen (Next files remote inspect) p p) ∧
        ObjectsOnly files remote inspect ⟨ctx, base⟩ := by
  constructor
  · rintro ⟨fuel, ended⟩
    obtain ⟨r, found, calm⟩ : ∃ r, Place.resolve files remote inspect fuel ⟨ctx, base⟩ = some r ∧ r ≠ .raised := by
      rcases ended with ⟨merged, found⟩ | ⟨reason, found⟩
      · exact ⟨_, found, fun raised => by cases raised⟩
      · exact ⟨_, found, fun raised => by cases raised⟩
    refine ⟨fun p reached => ?_, fun p reached ref doc isRef opened => ?_⟩
    · obtain ⟨_, _, later, -⟩ := reaches_resolve reached found
      exact not_leads_self later
    · obtain ⟨_, r', later, raises⟩ := reaches_resolve reached found
      cases reads : contextOf doc with
      | some read => rfl
      | none =>
        have step : p.step files remote inspect = .ended .raised := by
          rw [Place.step, isRef]
          simp only [follow_ok opened, reads, Option.elim_none]
        have raised := resolve_unique later (resolve_of_ended (n := 0) step)
        exact absurd (raises raised) calm
  · rintro ⟨acyclic, objects⟩
    obtain ⟨n, r, found, calm⟩ := returns_of_acyclic localOnly objects acyclic
    cases r with
    | ok merged => exact ⟨n, .inl ⟨merged, found⟩⟩
    | error reason => exact ⟨n, .inr ⟨reason, found⟩⟩
    | raised => exact absurd rfl calm

end Fuel

/-! ### Two sets of files -/

theorem Reaches.invariant {files : LocalFiles F} {remote : String → Option (TwValue F)} {inspect : TwValue F → String}
    {P : Place F → Prop} {start p : Place F} (reached : Reaches files remote inspect start p) (first : P start)
    (keeps : ∀ p, P p → ∀ q ∈ (p.step files remote inspect).targets, P q) : P p := by
  induction reached with
  | refl => exact first
  | tail _ next ih => exact keeps _ ih _ next.mem_targets

/-- A file with terms that domains share. -/
def sharedTerms : LocalFiles Int :=
  OrderedMap.empty.set ["plans", "terms.jsonld"]
    (.ok (.dict [("@context", .dict [("skill", .string "vsekai:skill/")])]))

/-- The array goes to the file above its directory and then to its own map. -/
def sharedPlaces : List (Place Int) :=
  [⟨.array [.string "../terms.jsonld", .dict [("task", .string "vsekai:task/")]], ["plans", "domains"]⟩,
   ⟨.string "../terms.jsonld", ["plans", "domains"]⟩,
   ⟨.dict [("task", .string "vsekai:task/")], ["plans", "domains"]⟩,
   ⟨.dict [("skill", .string "vsekai:skill/")], ["plans"]⟩]

theorem resolveContext_returns_shared :
    let start : TwValue Int := .array [.string "../terms.jsonld", .dict [("task", .string "vsekai:task/")]]
    let base := ["plans", "domains"]
    LocalOnly sharedTerms (fun _ => none) (fun _ => "") ⟨start, base⟩ ∧
      (∃ merged, resolveContext sharedTerms (fun _ => none) (fun _ => "") 3 start base = some (.ok merged)) ∧
      ObjectsOnly sharedTerms (fun _ => none) (fun _ => "") ⟨start, base⟩ := by
  intro start base
  have reached : ∀ p, Reaches sharedTerms (fun _ => none) (fun _ => "") ⟨start, base⟩ p → p ∈ sharedPlaces := by
    refine fun p reached => reached.invariant (P := (· ∈ sharedPlaces)) List.mem_cons_self fun p known => ?_
    simp only [sharedPlaces, List.mem_cons, List.not_mem_nil, or_false] at known
    rcases known with rfl | rfl | rfl | rfl
    · exact List.forall_mem_cons.mpr ⟨by simp [sharedPlaces], List.forall_mem_singleton.mpr (by simp [sharedPlaces])⟩
    · exact List.forall_mem_singleton.mpr (List.mem_of_mem_getLast? rfl)
    · exact List.forall_mem_nil _
    · exact List.forall_mem_nil _
  have localOnly : LocalOnly sharedTerms (fun _ => none) (fun _ => "") ⟨start, base⟩ := by
    intro p from_start ref isRef
    have known := reached p from_start
    simp only [sharedPlaces, List.mem_cons, List.not_mem_nil, or_false] at known
    rcases known with rfl | rfl | rfl | rfl
    · cases isRef
    · cases isRef
      decide
    · cases isRef
    · cases isRef
  have merged : ∃ merged, resolveContext sharedTerms (fun _ => none) (fun _ => "") 3 start base = some (.ok merged) :=
    ⟨_, rfl⟩
  have returns := resolveContext_returns_iff sharedTerms (fun _ => none) (fun _ => "") start base localOnly
  exact ⟨localOnly, merged, (returns.mp ⟨3, .inl merged⟩).2⟩

/-- A file whose context is the file itself. -/
def selfReference : LocalFiles Int :=
  OrderedMap.empty.set ["plans", "a.jsonld"] (.ok (.dict [("@context", .string "a.jsonld")]))

/-- Every reference is a file of the set, and no fuel is enough. -/
theorem resolveContext_runs_forever :
    LocalOnly selfReference (fun _ => none) (fun _ => "") ⟨.string "a.jsonld", ["plans"]⟩ ∧
      ∀ fuel, resolveContext selfReference (fun _ => none) (fun _ => "") fuel (.string "a.jsonld") ["plans"] = none := by
  have step : Place.step selfReference (fun _ => none) (fun _ => "") ⟨.string "a.jsonld", ["plans"]⟩ =
      .onward ⟨.string "a.jsonld", ["plans"]⟩ [] := rfl
  constructor
  · intro p reached ref isRef
    have same : p = ⟨.string "a.jsonld", ["plans"]⟩ := by
      refine reached.invariant (P := (· = _)) rfl ?_
      rintro _ rfl
      exact List.forall_mem_singleton.mpr rfl
    subst same
    cases isRef
    decide
  · intro fuel
    cases found : resolveContext selfReference (fun _ => none) (fun _ => "") fuel (.string "a.jsonld") ["plans"] with
    | none => rfl
    | some r => exact absurd (.single (.onward step)) (not_leads_self (p := ⟨.string "a.jsonld", ["plans"]⟩) found)

end WeftWarp.JsonldLoader
