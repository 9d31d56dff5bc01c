import Mathlib.Data.List.Nodup

/-! Maps that keep the order in which their keys were first inserted.

    The entries are a list of pairs read with `List.lookup`. Writing an existing key replaces its value in
    place, writing a new key appends it, so no key ever occurs twice. -/

namespace WeftWarp

variable {κ α : Type} [DecidableEq κ]

/-! ### Entry lists -/

/-- Write `v` under `k`: in place when `k` occurs, at the end otherwise. -/
def setEntry (k : κ) (v : α) : List (κ × α) → List (κ × α)
  | [] => [(k, v)]
  | (k', v') :: l => if k' = k then (k, v) :: l else (k', v') :: setEntry k v l

theorem lookup_setEntry_self (k : κ) (v : α) : ∀ l : List (κ × α), (setEntry k v l).lookup k = some v
  | [] => by simp [setEntry]
  | (k', v') :: l => by
    by_cases h : k' = k
    · simp [setEntry, h]
    · have hk : (k == k') = false := by simp [Ne.symm h]
      simp [setEntry, h, List.lookup_cons, hk, lookup_setEntry_self k v l]

variable {k : κ} {v : α} {l : List (κ × α)}

theorem lookup_setEntry_ne {k' : κ} (v : α) (h : k' ≠ k) :
    ∀ l : List (κ × α), (setEntry k v l).lookup k' = l.lookup k'
  | [] => by simp [setEntry, h]
  | (k₀, v₀) :: l => by
    by_cases h₀ : k₀ = k
    · subst h₀
      simp [setEntry, List.lookup_cons, beq_false_of_ne h]
    · simp [setEntry, h₀, List.lookup_cons, lookup_setEntry_ne v h l]

theorem mem_setEntry {kv : κ × α} : ∀ {l : List (κ × α)}, kv ∈ setEntry k v l → kv = (k, v) ∨ kv ∈ l
  | [], mem => .inl (List.mem_singleton.mp mem)
  | (k', v') :: l, mem => by
    rw [setEntry] at mem
    split at mem
    · exact (List.mem_cons.mp mem).imp_right (List.mem_cons_of_mem _)
    · rcases List.mem_cons.mp mem with rfl | mem
      · exact .inr List.mem_cons_self
      · exact (mem_setEntry mem).imp_right (List.mem_cons_of_mem _)

theorem map_fst_setEntry (k : κ) (v : α) : ∀ l : List (κ × α),
    (setEntry k v l).map Prod.fst = if k ∈ l.map Prod.fst then l.map Prod.fst else l.map Prod.fst ++ [k]
  | [] => by simp [setEntry]
  | (k', v') :: l => by
    by_cases h : k' = k
    · simp [setEntry, h]
    · simp only [setEntry, h, if_false, List.map_cons, map_fst_setEntry k v l, List.mem_cons, Ne.symm h,
        false_or]
      split <;> simp

theorem nodup_setEntry (h : (l.map Prod.fst).Nodup) : ((setEntry k v l).map Prod.fst).Nodup := by
  rw [map_fst_setEntry]
  split
  · exact h
  · rename_i hk
    rw [List.nodup_append]
    refine ⟨h, List.nodup_singleton k, ?_⟩
    intro a ha b hb hab
    rw [List.mem_singleton] at hb
    exact hk (hb ▸ hab ▸ ha)

/-- A key that the first part does not hold is written in the second part. -/
theorem setEntry_append_of_notMem : ∀ {l₁ l₂ : List (κ × α)}, k ∉ l₁.map Prod.fst →
    setEntry k v (l₁ ++ l₂) = l₁ ++ setEntry k v l₂
  | [], _, _ => rfl
  | (k', v') :: l₁, l₂, h => by
    simp only [List.map_cons, List.mem_cons, not_or] at h
    simp [setEntry, Ne.symm h.1, setEntry_append_of_notMem h.2]

theorem length_setEntry_of_mem (h : k ∈ l.map Prod.fst) : (setEntry k v l).length = l.length := by
  have keys := congrArg List.length (map_fst_setEntry k v l)
  rwa [if_pos h, List.length_map, List.length_map] at keys

theorem lookup_eq_none_of_notMem (h : k ∉ l.map Prod.fst) : l.lookup k = none := by
  rw [List.lookup_eq_none_iff]
  intro p hp
  have : k ≠ p.1 := fun he => h (he ▸ List.mem_map_of_mem hp)
  simp [this]

theorem mem_of_lookup (found : l.lookup k = some v) : (k, v) ∈ l := by
  obtain ⟨front, back, split, -⟩ := List.lookup_eq_some_iff.mp found
  rw [split]
  exact List.mem_append_right front List.mem_cons_self

/-! ### Maps -/

/-- Entries in the order of their insertion, no key twice. -/
structure OrderedMap (κ α : Type) where
  entries : List (κ × α)
  nodup : (entries.map Prod.fst).Nodup

namespace OrderedMap

/-- No entry. -/
def empty : OrderedMap κ α := ⟨[], List.nodup_nil⟩

/-- The value of a key. -/
def find? (m : OrderedMap κ α) (k : κ) : Option α := m.entries.lookup k

/-- The value is replaced, or the entry is added at the end. -/
def set (m : OrderedMap κ α) (k : κ) (v : α) : OrderedMap κ α := ⟨setEntry k v m.entries, nodup_setEntry m.nodup⟩

/-- The entries whose keys the test accepts. -/
def filter (m : OrderedMap κ α) (keep : κ → Bool) : OrderedMap κ α :=
  ⟨m.entries.filter fun entry => keep entry.1,
   m.nodup.sublist (List.filter_sublist.map Prod.fst)⟩

/-- The entry is removed. -/
def erase (m : OrderedMap κ α) (k : κ) : OrderedMap κ α := m.filter fun k' => k' ≠ k

/-- Write what `f` makes of the entries, those apart of which it makes nothing. -/
def writeAll {β : Type} (f : α → Option β) (l : List (κ × α)) (m : OrderedMap κ β) : OrderedMap κ β :=
  l.foldl (fun m kv => (f kv.2).elim m (m.set kv.1)) m

/-- Write the entries of `n` into `m`. -/
def update (m n : OrderedMap κ α) : OrderedMap κ α := writeAll some n.entries m

/-- The same keys with what `f` makes of their values. -/
def mapValues {β : Type} (m : OrderedMap κ α) (f : α → β) : OrderedMap κ β :=
  ⟨m.entries.map fun entry => (entry.1, f entry.2), by rw [List.map_map]; exact m.nodup⟩

/-- The keys in the order of their first insertion. -/
def keys (m : OrderedMap κ α) : List κ := m.entries.map Prod.fst

variable {m : OrderedMap κ α} {k : κ} {v : α}

omit [DecidableEq κ] in
theorem ext_entries {n : OrderedMap κ α} (h : m.entries = n.entries) : m = n := by
  cases m
  cases n
  cases h
  rfl

theorem entries_set (m : OrderedMap κ α) (k : κ) (v : α) : (m.set k v).entries = setEntry k v m.entries := rfl

theorem mem_keys_set {k' : κ} : k' ∈ (m.set k v).keys ↔ k' ∈ m.keys ∨ k' = k := by
  have keys : (m.set k v).keys = if k ∈ m.keys then m.keys else m.keys ++ [k] := map_fst_setEntry k v m.entries
  rw [keys]
  split
  · rename_i held
    exact ⟨.inl, fun h => h.elim id fun same => same ▸ held⟩
  · rw [List.mem_append, List.mem_singleton]

@[simp] theorem find?_empty (k : κ) : (empty : OrderedMap κ α).find? k = none := rfl

@[simp] theorem find?_set_self (m : OrderedMap κ α) (k : κ) (v : α) : (m.set k v).find? k = some v :=
  lookup_setEntry_self k v m.entries

theorem find?_set_ne (m : OrderedMap κ α) {k' : κ} (v : α) (h : k' ≠ k) : (m.set k v).find? k' = m.find? k' :=
  lookup_setEntry_ne v h m.entries

theorem find?_set (m : OrderedMap κ α) (k k' : κ) (v : α) :
    (m.set k v).find? k' = if k' = k then some v else m.find? k' := by
  by_cases h : k' = k
  · subst h
    simp
  · simp [h, find?_set_ne m v h]

omit [DecidableEq κ] in
theorem lookup_filter [BEq κ] [LawfulBEq κ] (k : κ) (keep : κ → Bool) : ∀ l : List (κ × α),
    (l.filter fun entry => keep entry.1).lookup k = if keep k then l.lookup k else none
  | [] => by simp
  | (k', v) :: l => by
    have ih := lookup_filter k keep l
    by_cases same : k = k'
    · subst same
      cases kept : keep k
      · simpa [kept] using ih
      · simp [kept]
    · cases kept : keep k' <;> simp [kept, List.lookup_cons, beq_false_of_ne same, ih]

theorem find?_filter (m : OrderedMap κ α) (keep : κ → Bool) (k : κ) :
    (m.filter keep).find? k = if keep k then m.find? k else none :=
  lookup_filter k keep m.entries

theorem find?_erase (m : OrderedMap κ α) (k k' : κ) :
    (m.erase k).find? k' = if k' = k then none else m.find? k' := by
  rw [erase, find?_filter]
  by_cases same : k' = k <;> simp [same]

theorem find?_of_mem (mem : (k, v) ∈ m.entries) : m.find? k = some v := by
  obtain ⟨front, back, split⟩ := List.append_of_mem mem
  have nodup := m.nodup
  rw [split, List.map_append, List.map_cons, List.nodup_append] at nodup
  have absent : k ∉ front.map Prod.fst := fun early => nodup.2.2 k early k List.mem_cons_self rfl
  rw [find?, split, List.lookup_append, lookup_eq_none_of_notMem absent, Option.none_or, List.lookup_cons_self]

theorem mem_of_find? (found : m.find? k = some v) : (k, v) ∈ m.entries :=
  mem_of_lookup found

/-- The order of the entries does not matter for reading. -/
theorem find?_perm {n : OrderedMap κ α} (perm : m.entries.Perm n.entries) (k : κ) : m.find? k = n.find? k := by
  refine Option.ext fun v => ?_
  exact ⟨fun found => find?_of_mem (perm.mem_iff.mp (mem_of_find? found)),
    fun found => find?_of_mem (perm.mem_iff.mpr (mem_of_find? found))⟩

variable {β : Type}

theorem find?_writeAll (f : α → Option β) (k : κ) : ∀ {l : List (κ × α)} (m : OrderedMap κ β),
    (l.map Prod.fst).Nodup → (writeAll f l m).find? k = ((l.lookup k).bind f).or (m.find? k)
  | [], _, _ => by simp [writeAll]
  | (k', v) :: l, m, nodup => by
    obtain ⟨fresh, nodup⟩ := List.nodup_cons.mp nodup
    have rest := find?_writeAll f k ((f v).elim m (m.set k')) nodup
    rw [writeAll, List.foldl_cons, ← writeAll, rest]
    by_cases same : k = k'
    · subst same
      rw [lookup_eq_none_of_notMem fresh, List.lookup_cons_self]
      cases kept : f v <;> simp [kept]
    · rw [List.lookup_cons, beq_false_of_ne same]
      cases f v <;> simp [find?_set_ne _ _ same]

theorem find?_mapValues (m : OrderedMap κ α) (f : α → β) (k : κ) : (m.mapValues f).find? k = (m.find? k).map f := by
  simp only [find?, mapValues]
  induction m.entries with
  | nil => rfl
  | cons entry entries ih =>
    rw [List.map_cons, List.lookup_cons, List.lookup_cons, ih]
    split <;> rfl

theorem mapValues_set (m : OrderedMap κ α) (f : α → β) (k : κ) (v : α) :
    (m.set k v).mapValues f = (m.mapValues f).set k (f v) := by
  refine ext_entries ?_
  simp only [mapValues, set]
  induction m.entries with
  | nil => rfl
  | cons entry entries ih =>
    simp only [setEntry, List.map_cons, ← ih]
    split <;> rfl

theorem mapValues_writeAll {γ : Type} (f : α → Option β) (g : β → γ) (l : List (κ × α)) (m : OrderedMap κ β) :
    (writeAll f l m).mapValues g = writeAll (fun a => (f a).map g) l (m.mapValues g) := by
  induction l generalizing m with
  | nil => rfl
  | cons kv l ih =>
    have head : ((f kv.2).elim m (m.set kv.1)).mapValues g =
        ((f kv.2).map g).elim (m.mapValues g) ((m.mapValues g).set kv.1) := by
      cases f kv.2 with
      | none => rfl
      | some v => exact mapValues_set m g kv.1 v
    rw [writeAll, List.foldl_cons, ← writeAll, ih, head]
    rfl

section Splice
variable {n : Nat} {extra m m' : OrderedMap κ α}

end Splice
end OrderedMap
end WeftWarp
