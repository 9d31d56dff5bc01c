import WeftWarp.Planner
import WeftWarp.Theorems.JsonRoundTrip

/-! # Keys of calls

The blacklist holds the texts of calls. A text says neither where an argument ends nor of which type it was, so
blacklisting a call refuses others as well. -/

namespace WeftWarp

/-! ### Joined texts -/

section Joined
variable {α : Type} [DecidableEq α] {sep : α}

/-- Parts with a separator before each but the first. -/
def joined (sep : α) (part : List α) (parts : List (List α)) : List α := part ++ parts.flatMap (sep :: ·)

theorem takeWhile_joined {part : List α} (free : sep ∉ part) (parts : List (List α)) :
    (joined sep part parts).takeWhile (· ≠ sep) = part := by
  have kept : ∀ a ∈ part, decide (a ≠ sep) = true := by
    intro a mem
    exact decide_eq_true fun same => free (same ▸ mem)
  rw [joined, List.takeWhile_append_of_pos kept]
  cases parts with
  | nil => simp
  | cons next parts => simp

/-- Parts without the separator are told apart. -/
theorem joined_inj {parts parts' : List (List α)} {part part' : List α} (free : ∀ p ∈ part :: parts, sep ∉ p)
    (free' : ∀ p ∈ part' :: parts', sep ∉ p) (same : joined sep part parts = joined sep part' parts') :
    part = part' ∧ parts = parts' := by
  induction parts generalizing part part' parts' with
  | nil =>
    have head : part = part' := by
      rw [← takeWhile_joined (free part List.mem_cons_self) [], same, takeWhile_joined (free' part' List.mem_cons_self)]
    refine ⟨head, ?_⟩
    subst head
    cases parts' with
    | nil => rfl
    | cons => cases List.append_cancel_left same
  | cons next parts ih =>
    have head : part = part' := by
      rw [← takeWhile_joined (free part List.mem_cons_self) (next :: parts), same,
        takeWhile_joined (free' part' List.mem_cons_self)]
    refine ⟨head, ?_⟩
    subst head
    cases parts' with
    | nil => cases List.append_cancel_left same
    | cons next' parts' =>
      have tail : joined sep next parts = joined sep next' parts' := (List.cons.inj (List.append_cancel_left same)).2
      obtain ⟨first, rest⟩ := ih (List.forall_mem_cons.mp free).2 (List.forall_mem_cons.mp free').2 tail
      rw [first, rest]

end Joined

variable {F : Type} [Cxx F]

/-! ### Keys -/

theorem toList_twCallKey (c : TwCall F) :
    (twCallKey c).toList = joined '\x1f' c.name.toList (c.args.map fun a => a.toText.toList) := by
  obtain ⟨name, args⟩ := c
  rw [twCallKey, joined]
  induction args generalizing name with
  | nil => simp
  | cons a args ih =>
    rw [List.foldl_cons, ih]
    simp

theorem blacklisted_singleton {c d : TwCall F} : blacklisted [twCallKey c] d = true ↔ twCallKey d = twCallKey c := by
  simp [blacklisted]

/-- Neither the name nor the rendering of an argument has the separator. -/
def SeparatorFree (c : TwCall F) : Prop := '\x1f' ∉ c.name.toList ∧ ∀ a ∈ c.args, '\x1f' ∉ a.toText.toList

theorem SeparatorFree.parts {c : TwCall F} (free : SeparatorFree c) :
    ∀ p ∈ c.name.toList :: c.args.map fun a => a.toText.toList, '\x1f' ∉ p := by
  refine List.forall_mem_cons.mpr ⟨free.1, fun p mem => ?_⟩
  obtain ⟨a, arg, rfl⟩ := List.mem_map.mp mem
  exact free.2 a arg

/-- Between calls without the separator the key compares names and renderings. -/
theorem twCallKey_eq_iff {c d : TwCall F} (freeC : SeparatorFree c) (freeD : SeparatorFree d) :
    twCallKey d = twCallKey c ↔ d.name = c.name ∧ d.args.map TwValue.toText = c.args.map TwValue.toText := by
  constructor
  · intro same
    have lists := congrArg String.toList same
    rw [toList_twCallKey, toList_twCallKey] at lists
    obtain ⟨name, args⟩ := joined_inj freeD.parts freeC.parts lists
    refine ⟨String.toList_inj.mp name, ?_⟩
    have texts : (d.args.map TwValue.toText).map String.toList = (c.args.map TwValue.toText).map String.toList := by
      simpa [List.map_map, Function.comp_def] using args
    exact List.map_injective_iff.mpr (fun _ _ => String.toList_inj.mp) texts
  · rintro ⟨name, args⟩
    have lists : d.args.map (fun a => a.toText.toList) = c.args.map fun a => a.toText.toList := by
      simpa [List.map_map, Function.comp_def] using congrArg (List.map String.toList) args
    apply String.toList_inj.mp
    rw [toList_twCallKey, toList_twCallKey, name, lists]

/-! ### Renderings -/

/-- Two values of the same type, neither a `double` nor a collection. -/
def ScalarAlike : TwValue F → TwValue F → Prop
  | .nil, .nil | .bool _, .bool _ | .int _, .int _ | .string _, .string _ => True
  | _, _ => False

theorem toText_int_inj {i j : Int64} (same : (.int i : TwValue F).toText = (.int j : TwValue F).toText) : i = j := by
  have first := (reads_int (F := F) i).padded.parseJsonStr_eq
  have second := (reads_int (F := F) j).padded.parseJsonStr_eq
  rw [TwValue.toText, TwValue.toText] at same
  rw [same] at first
  exact TwValue.int.inj (Except.ok.inj (first.symm.trans second))

theorem toText_inj {a b : TwValue F} (alike : ScalarAlike a b) (same : a.toText = b.toText) : a = b := by
  cases a with
  | nil => cases b <;> first | rfl | exact absurd alike id
  | bool p =>
    cases b with
    | bool q =>
      have names : ∀ p q : Bool, (if p then "true" else "false") = (if q then "true" else "false") → p = q := by decide
      exact congrArg TwValue.bool (names p q same)
    | _ => exact absurd alike id
  | int i =>
    cases b with
    | int j => exact congrArg TwValue.int (toText_int_inj same)
    | _ => exact absurd alike id
  | string s =>
    cases b with
    | string t => exact congrArg TwValue.string same
    | _ => exact absurd alike id
  | _ => exact absurd alike id

theorem args_eq_of_texts {xs ys : List (TwValue F)} (alike : List.Forall₂ ScalarAlike xs ys)
    (same : xs.map TwValue.toText = ys.map TwValue.toText) : xs = ys := by
  induction alike with
  | nil => rfl
  | cons head _ ih =>
    obtain ⟨first, rest⟩ := List.cons.inj same
    rw [toText_inj head first, ih rest]

/-! ### What a blacklisted call refuses -/

/-- A call without arguments whose name has no separator shares its key with no other call. -/
theorem eq_of_twCallKey {c d : TwCall F} (noArgs : c.args = []) (free : '\x1f' ∉ c.name.toList)
    (same : twCallKey d = twCallKey c) : d = c := by
  obtain ⟨name, args⟩ := c
  obtain ⟨name', args'⟩ := d
  obtain rfl : args = [] := noArgs
  have lists := congrArg String.toList same
  rw [toList_twCallKey, toList_twCallKey] at lists
  simp only [joined, List.map_nil, List.flatMap_nil, List.append_nil] at lists
  cases args' with
  | nil =>
    have name_eq : name' = name := String.toList_inj.mp (by simpa using lists)
    rw [name_eq]
  | cons a args' =>
    refine absurd ?_ free
    rw [← lists]
    simp

/-- Every other call shares its key: with the call that has its key as a name, or with the one that has the part of the
    name behind a separator as an argument. -/
theorem exists_twCallKey_eq {c : TwCall F} (ambiguous : c.args ≠ [] ∨ '\x1f' ∈ c.name.toList) :
    ∃ d, twCallKey d = twCallKey c ∧ d ≠ c := by
  by_cases noArgs : c.args = []
  · obtain ⟨front, back, split⟩ := List.append_of_mem (ambiguous.resolve_left fun some => some noArgs)
    refine ⟨⟨String.ofList front, [.string (String.ofList back)]⟩, ?_, fun same => ?_⟩
    · apply String.toList_inj.mp
      rw [toList_twCallKey, toList_twCallKey, noArgs, split]
      simp [joined, TwValue.toText]
    · rw [← same] at noArgs
      cases noArgs
  · exact ⟨⟨twCallKey c, []⟩, rfl, fun same => noArgs (by rw [← same])⟩

/-- Blacklisting a call refuses no other call exactly if it has no arguments and no separator in its name. Among calls
    without the separator it refuses those of the same name and the same renderings, and where corresponding arguments
    have the same simple type, that call only. -/
theorem blacklisted_exact_iff (c : TwCall F) :
    ((∀ d, blacklisted [twCallKey c] d = true → d = c) ↔ c.args = [] ∧ '\x1f' ∉ c.name.toList) ∧
      ∀ d, SeparatorFree c → SeparatorFree d →
        (blacklisted [twCallKey c] d = true ↔ d.name = c.name ∧ d.args.map TwValue.toText = c.args.map TwValue.toText) ∧
        (List.Forall₂ ScalarAlike d.args c.args → (blacklisted [twCallKey c] d = true ↔ d = c)) := by
  simp only [blacklisted_singleton]
  refine ⟨⟨fun exactly => ?_, fun ⟨noArgs, free⟩ d => eq_of_twCallKey noArgs free⟩, fun d freeC freeD => ?_⟩
  · by_contra ambiguous
    have reasons : c.args ≠ [] ∨ '\x1f' ∈ c.name.toList := by
      by_cases noArgs : c.args = []
      · exact .inr (by_contra fun free => ambiguous ⟨noArgs, free⟩)
      · exact .inl noArgs
    obtain ⟨d, same, other⟩ := exists_twCallKey_eq reasons
    exact other (exactly d same)
  · have keys := twCallKey_eq_iff freeC freeD
    refine ⟨keys, fun alike => ⟨fun same => ?_, fun same => by rw [same]⟩⟩
    obtain ⟨name, texts⟩ := keys.mp same
    have args := args_eq_of_texts alike texts
    obtain ⟨_, _⟩ := c
    obtain ⟨_, _⟩ := d
    rw [TwCall.mk.injEq]
    exact ⟨name, args⟩

/-- One action, which changes nothing. -/
def shelfDomain : TwDomain Int where
  actions := OrderedMap.empty.set "take" fun s _ => some s
  taskMethods := .empty
  actionDurations := .empty

/-- To take the item "1" is refused because taking the first item failed. -/
theorem twPlan_refuses_string :
    twPlan .empty [.call ⟨"take", [.string "1"]⟩] shelfDomain [] = .ok (some [⟨"take", [.string "1"]⟩]) ∧
      twPlan .empty [.call ⟨"take", [.string "1"]⟩] shelfDomain [twCallKey (⟨"take", [.int 1]⟩ : TwCall Int)] = .ok none ∧
      (⟨"take", [.string "1"]⟩ : TwCall Int) ≠ ⟨"take", [.int 1]⟩ := by
  refine ⟨?_, ?_, ?_⟩ <;> decide +kernel

end WeftWarp
