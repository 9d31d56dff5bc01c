import WeftWarp.State

/-! # The hash of a state

Whatever is called on a family of states, a memo that counts as valid is the hash of the variables beside it. The hash
sorts names, so it does not depend on the order of insertion. -/

namespace WeftWarp

variable {F : Type} [Cxx F]

/-! ### Calls on a family of states -/

/-- A call on one state of the family. A copy is added to the family. -/
inductive StateCall (F : Type) where
  | setVar (i : Nat) (key : String) (val : TwValue F)
  | setNested (i : Nat) (var : String) (key val : TwValue F)
  | copy (i : Nat)
  | signatureHash (i : Nat)

namespace StateCall

/-- One call. A state that is not there cannot be called. -/
def apply (family : List (MemoState F)) : StateCall F → List (MemoState F)
  | setVar i key val => family.modify i (·.setVar key val)
  | setNested i var key val => family.modify i (·.setNested var key val)
  | copy i => family ++ family[i]?.toList.map (·.copy)
  | signatureHash i => family.modify i (·.signatureHash.2)

/-- The family after the calls, in order, on new states. -/
def run (start : List (TwState F)) (calls : List (StateCall F)) : List (MemoState F) :=
  calls.foldl apply (start.map fun s => { state := s })

end StateCall

/-- A memo that counts as valid is the hash of the variables. -/
def MemoState.Fresh (m : MemoState F) : Prop := m.sigHashValid = true → m.sigHashCache = m.state.signatureHash

namespace MemoState.Fresh
variable {m : MemoState F}

theorem signatureHash (h : m.Fresh) : m.signatureHash.1 = m.state.signatureHash ∧ m.signatureHash.2.Fresh := by
  rw [MemoState.signatureHash]
  by_cases valid : m.sigHashValid = true
  · rw [if_pos valid]
    exact ⟨h valid, h⟩
  · rw [if_neg valid]
    exact ⟨rfl, fun _ => rfl⟩

theorem of_invalid (invalid : m.sigHashValid = false) : m.Fresh := fun valid => by
  rw [invalid] at valid
  cases valid

end MemoState.Fresh

namespace StateCall

theorem fresh_modify {family : List (MemoState F)} (h : ∀ m ∈ family, m.Fresh) (i : Nat)
    {f : MemoState F → MemoState F} (keeps : ∀ m, m.Fresh → (f m).Fresh) : ∀ m ∈ family.modify i f, m.Fresh := by
  intro m hm
  obtain ⟨j, hj⟩ := List.mem_iff_getElem?.mp hm
  rw [List.getElem?_modify] at hj
  obtain ⟨old, hold, rfl⟩ := Option.map_eq_some_iff.mp hj
  have fresh := h old (List.mem_of_getElem? hold)
  by_cases at_i : i = j
  · simpa only [at_i, if_true] using keeps old fresh
  · simpa only [at_i, if_false] using fresh

theorem fresh_apply {family : List (MemoState F)} (h : ∀ m ∈ family, m.Fresh) (call : StateCall F) :
    ∀ m ∈ apply family call, m.Fresh := by
  cases call with
  | setVar i key val => exact fresh_modify h i fun _ _ => .of_invalid rfl
  | setNested i var key val => exact fresh_modify h i fun _ _ => .of_invalid rfl
  | signatureHash i => exact fresh_modify h i fun _ fresh => fresh.signatureHash.2
  | copy i =>
    intro m hm
    rcases List.mem_append.mp hm with hm | hm
    · exact h m hm
    · obtain ⟨old, hold, rfl⟩ := List.mem_map.mp hm
      exact h old (List.mem_of_getElem? (Option.mem_toList.mp hold))

theorem fresh_run (start : List (TwState F)) (calls : List (StateCall F)) : ∀ m ∈ run start calls, m.Fresh := by
  have new : ∀ m ∈ start.map fun s => ({ state := s } : MemoState F), m.Fresh := by
    intro m hm
    obtain ⟨s, -, rfl⟩ := List.mem_map.mp hm
    exact .of_invalid rfl
  rw [run]
  generalize start.map (fun s => ({ state := s } : MemoState F)) = family at new ⊢
  induction calls generalizing family with
  | nil => exact new
  | cons call calls ih => exact ih _ (fresh_apply new call)

end StateCall

/-! ### Equal up to order -/

mutual

/-- The values are the same but for the order of the keys of dictionaries, at any depth. Both zeros are one number. -/
inductive SameValue : TwValue F → TwValue F → Prop
  | nil : SameValue .nil .nil
  | bool (b : Bool) : SameValue (.bool b) (.bool b)
  | int (i : Int64) : SameValue (.int i) (.int i)
  | float (f : F) : SameValue (.float f) (.float f)
  | zero {f g : F} (left : Cxx.eq f Cxx.zero = true) (right : Cxx.eq g Cxx.zero = true) : SameValue (.float f) (.float g)
  | string (s : String) : SameValue (.string s) (.string s)
  | array {xs ys : List (TwValue F)} (elements : SameValues xs ys) : SameValue (.array xs) (.array ys)
  | dict {kvs kvs' : Dict F} (keys : (kvs.map Prod.fst).Nodup) (entries : SameEntries kvs kvs') :
    SameValue (.dict kvs) (.dict kvs')

/-- Values that are the same one by one. -/
inductive SameValues : List (TwValue F) → List (TwValue F) → Prop
  | nil : SameValues [] []
  | cons {x y : TwValue F} {xs ys : List (TwValue F)} (head : SameValue x y) (tail : SameValues xs ys) :
    SameValues (x :: xs) (y :: ys)

/-- Entries that are the same in any order. -/
inductive SameEntries : Dict F → Dict F → Prop
  | nil : SameEntries [] []
  | cons (k : String) {v w : TwValue F} {kvs kvs' : Dict F} (head : SameValue v w)
    (tail : SameEntries kvs kvs') : SameEntries ((k, v) :: kvs) ((k, w) :: kvs')
  | reorder {kvs kvs' kvs'' : Dict F} (perm : kvs.Perm kvs') (same : SameEntries kvs' kvs'') :
    SameEntries kvs kvs''

end

theorem entryHashes_eq_map (kvs : Dict F) :
    TwValue.entryHashes kvs = kvs.map fun kv => (kv.1, kv.2.stableHash) := by
  induction kvs with
  | nil => rfl
  | cons kv kvs ih => rw [TwValue.entryHashes, ih, List.map_cons]

theorem map_fst_entryHashes (kvs : Dict F) :
    (TwValue.entryHashes kvs).map Prod.fst = kvs.map Prod.fst := by
  rw [entryHashes_eq_map, List.map_map]
  rfl

theorem lookup_entryHashes (k : String) (kvs : Dict F) :
    (TwValue.entryHashes kvs).lookup k = (kvs.lookup k).map (·.stableHash) := by
  induction kvs with
  | nil => rfl
  | cons kv kvs ih =>
    rw [TwValue.entryHashes, List.lookup_cons, List.lookup_cons, ih]
    cases k == kv.1 <;> rfl

/-- Lists of the same entries in another order are read alike. -/
theorem lookup_perm {α : Type} {l l' : List (String × α)} (keys : (l.map Prod.fst).Nodup) (perm : l.Perm l')
    (k : String) : l.lookup k = l'.lookup k :=
  OrderedMap.find?_perm (m := ⟨l, keys⟩) (n := ⟨l', (perm.map Prod.fst).nodup_iff.mp keys⟩) perm k

theorem insertionSort_perm {keys keys' : List String} (perm : keys.Perm keys') :
    keys.insertionSort (· ≤ ·) = keys'.insertionSort (· ≤ ·) := by
  refine List.Perm.eq_of_pairwise' (List.pairwise_insertionSort _ _) (List.pairwise_insertionSort _ _) ?_
  exact (List.perm_insertionSort _ _).trans (perm.trans (List.perm_insertionSort _ _).symm)

mutual

theorem SameValue.stableHash : ∀ {v w : TwValue F}, SameValue v w → v.stableHash = w.stableHash
  | _, _, .nil => rfl
  | _, _, .bool _ => rfl
  | _, _, .int _ => rfl
  | _, _, .float _ => rfl
  | _, _, .zero left right => by
    rw [TwValue.stableHash, TwValue.stableHash, TwValue.floatBits, TwValue.floatBits, if_pos left, if_pos right]
  | _, _, .string _ => rfl
  | _, _, .array elements => by
    obtain ⟨hashes, length⟩ := elements.stableHashes
    rw [TwValue.stableHash, TwValue.stableHash, hashes, length]
  | _, _, .dict keys entries => by
    have perm := entries.entryHashes
    have sorted := insertionSort_perm (perm.map Prod.fst)
    rw [map_fst_entryHashes, map_fst_entryHashes] at sorted
    have found := lookup_perm (by rwa [map_fst_entryHashes]) perm
    simp only [TwValue.stableHash, sorted, found]

theorem SameValues.stableHashes : ∀ {xs ys : List (TwValue F)}, SameValues xs ys →
    TwValue.stableHashes xs = TwValue.stableHashes ys ∧ xs.length = ys.length
  | _, _, .nil => ⟨rfl, rfl⟩
  | _, _, .cons head tail => by
    obtain ⟨hashes, length⟩ := tail.stableHashes
    rw [TwValue.stableHashes, TwValue.stableHashes, head.stableHash, hashes, List.length_cons, List.length_cons, length]
    exact ⟨rfl, rfl⟩

theorem SameEntries.entryHashes : ∀ {kvs kvs' : Dict F}, SameEntries kvs kvs' →
    (TwValue.entryHashes kvs).Perm (TwValue.entryHashes kvs')
  | _, _, .nil => .refl _
  | _, _, .cons k head tail => by
    rw [TwValue.entryHashes, TwValue.entryHashes, head.stableHash]
    exact .cons _ tail.entryHashes
  | _, _, .reorder perm same => by
    refine List.Perm.trans ?_ same.entryHashes
    rw [entryHashes_eq_map, entryHashes_eq_map]
    exact perm.map _

end

/-- States with the same variables in any order have the same hash. -/
theorem SameEntries.signatureHash {s t : TwState F} (same : SameEntries s.vars.entries t.vars.entries) :
    s.signatureHash = t.signatureHash := by
  have perm := same.entryHashes
  have sorted : s.vars.keys.insertionSort (· ≤ ·) = t.vars.keys.insertionSort (· ≤ ·) := by
    refine insertionSort_perm ?_
    have keys := perm.map Prod.fst
    rwa [map_fst_entryHashes, map_fst_entryHashes] at keys
  have found := lookup_perm (by rw [map_fst_entryHashes]; exact s.vars.nodup) perm
  have hashes : ∀ k, (s.getVar k).stableHash = (t.getVar k).stableHash := by
    intro k
    have hash (s : TwState F) : (s.getVar k).stableHash =
        ((TwValue.entryHashes s.vars.entries).lookup k).getD (TwValue.nil : TwValue F).stableHash := by
      rw [lookup_entryHashes, TwState.getVar, OrderedMap.find?]
      cases s.vars.entries.lookup k <;> rfl
    rw [hash s, hash t, found]
  rw [TwState.signatureHash, TwState.signatureHash, sorted]
  simp only [hashes]

/-- Whatever is called on a family of states, `signature_hash` of each is the hash of its variables. States whose
    variables are equal up to the order of names and keys have the same hash. -/
theorem signatureHash_memo_exact (start : List (TwState F)) (calls : List (StateCall F)) :
    (∀ m ∈ StateCall.run start calls, m.signatureHash.1 = m.state.signatureHash) ∧
    ∀ s t : TwState F, SameEntries s.vars.entries t.vars.entries → s.signatureHash = t.signatureHash :=
  ⟨fun m hm => (StateCall.fresh_run start calls m hm).signatureHash.1, fun _ _ same => same.signatureHash⟩

theorem signatureHash_memo_exact_reordered :
    let s : TwState Int := (TwState.empty.setVar "door" (.dict [("open", .bool true), ("key", .int 2)])).setVar "lamp" .nil
    let t : TwState Int := (TwState.empty.setVar "lamp" .nil).setVar "door" (.dict [("key", .int 2), ("open", .bool true)])
    SameEntries s.vars.entries t.vars.entries ∧ s.signatureHash = t.signatureHash ∧
      ∀ m ∈ StateCall.run [s] [.signatureHash 0, .copy 0, .setVar 1 "lamp" (.bool true)],
        m.signatureHash.1 = m.state.signatureHash := by
  intro s t
  have entries : s.vars.entries = [("door", .dict [("open", .bool true), ("key", .int 2)]), ("lamp", .nil)] := rfl
  have door : SameValue (.dict [("open", .bool true), ("key", .int 2)] : TwValue Int)
      (.dict [("key", .int 2), ("open", .bool true)]) :=
    .dict (by decide) (.reorder (.swap _ _ _) (.cons _ (.int 2) (.cons _ (.bool true) .nil)))
  have same : SameEntries s.vars.entries t.vars.entries := by
    rw [entries]
    exact .reorder (.swap _ _ _) (.cons "lamp" .nil (.cons "door" door .nil))
  have exact := signatureHash_memo_exact [s] [.signatureHash 0, .copy 0, .setVar 1 "lamp" (.bool true)]
  exact ⟨same, exact.2 s t same, exact.1⟩

end WeftWarp
