import WeftWarp.Theorems.PointerTemplates

/-! # What a template means

`resolve_param` has a shortcut for a text that is one placeholder. It does not see that the placeholder may have ended
before: a text `{p}q}` is taken for a placeholder named `p}q`, where the scan would replace `{p}`. -/

namespace WeftWarp
namespace TwLoader
variable {F : Type} [Cxx F] {params : Params F}

/-! ### The scan -/

/-- The text `cs` read from left to right, with each placeholder whose name is bound replaced by the text of its value.
    A placeholder ends at the first closing brace; an opening brace without one stands for itself. -/
inductive Filled (params : Params F) : List Char → List Char → Prop
  | done : Filled params [] []
  | other {c : Char} {cs out : List Char} (notOpen : c ≠ '\x7b') (rest : Filled params cs out) :
    Filled params (c :: cs) (c :: out)
  | unclosed {cs : List Char} (noClose : '\x7d' ∉ cs) : Filled params ('\x7b' :: cs) ('\x7b' :: cs)
  | bound {name cs out : List Char} {v : TwValue F} (closed : '\x7d' ∉ name)
    (found : params.find? (String.ofList name) = some v) (rest : Filled params cs out) :
    Filled params ('\x7b' :: name ++ '\x7d' :: cs) (v.toText.toList ++ out)
  | unbound {name cs out : List Char} (closed : '\x7d' ∉ name) (missing : params.find? (String.ofList name) = none)
    (rest : Filled params cs out) : Filled params ('\x7b' :: name ++ '\x7d' :: cs) ('\x7b' :: name ++ '\x7d' :: out)

theorem fillFrom_open (cs : List Char) :
    fillFrom params TwValue.toText none ('\x7b' :: cs) = fillFrom params TwValue.toText (some []) cs := by
  rw [fillFrom, if_pos rfl]

theorem fillFrom_unclosed (read : List Char) {cs : List Char} (noClose : '\x7d' ∉ cs) :
    fillFrom params TwValue.toText (some read) cs = '\x7b' :: read ++ cs := by
  induction cs generalizing read with
  | nil => rw [fillFrom, List.append_nil]
  | cons c cs ih =>
    rw [List.mem_cons, not_or] at noClose
    rw [fillFrom, if_neg (Ne.symm noClose.1), ih (read ++ [c]) noClose.2]
    simp

theorem fillFrom_placeholder {name : List Char} (closed : '\x7d' ∉ name) (cs : List Char) :
    fillFrom params TwValue.toText none ('\x7b' :: name ++ '\x7d' :: cs) =
      rendered params TwValue.toText name ++ fillFrom params TwValue.toText none cs := by
  rw [List.cons_append, fillFrom_open, fillFrom_closed [] closed, List.nil_append]

theorem Filled.eq_fillFrom {cs out : List Char} (filled : Filled params cs out) :
    out = fillFrom params TwValue.toText none cs := by
  induction filled with
  | done => rfl
  | other notOpen _ ih => rw [fillFrom, if_neg notOpen, ← ih]
  | unclosed noClose => rw [fillFrom_open, fillFrom_unclosed [] noClose, List.singleton_append]
  | bound closed found _ ih => rw [fillFrom_placeholder closed, ← ih, rendered, found]; rfl
  | unbound closed missing _ ih => rw [fillFrom_placeholder closed, ← ih, rendered, missing]; simp

theorem filled_fillFrom (cs : List Char) : Filled params cs (fillFrom params TwValue.toText none cs) := by
  induction h : cs.length using Nat.strong_induction_on generalizing cs with
  | _ n ih =>
    subst h
    cases cs with
    | nil => exact .done
    | cons c cs =>
      by_cases opens : c = '\x7b'
      · subst opens
        by_cases closes : '\x7d' ∈ cs
        · obtain ⟨name, rest, rfl, closed⟩ := List.eq_append_cons_of_mem closes
          have later := ih rest.length (by simp; omega) rest rfl
          rw [← List.cons_append, fillFrom_placeholder closed, rendered]
          cases found : params.find? (String.ofList name) with
          | none => simpa using Filled.unbound closed found later
          | some v => exact .bound closed found later
        · rw [fillFrom_open, fillFrom_unclosed [] closes]
          exact .unclosed closes
      · rw [fillFrom, if_neg opens]
        exact .other opens (ih cs.length (by simp) cs rfl)

theorem filled_iff {cs out : List Char} : Filled params cs out ↔ out = fillFrom params TwValue.toText none cs :=
  ⟨Filled.eq_fillFrom, fun same => same ▸ filled_fillFrom cs⟩

/-! ### The shortcut -/

/-- For the text `{p}q}` the shortcut gives what the scan gives: a value bound to `p}q` is the filled text, and without
    such a value `{p}` stays as it is. -/
structure ShortcutAgrees (params : Params F) (p q : List Char) : Prop where
  whole : ∀ w, params.find? (String.ofList (p ++ '\x7d' :: q)) = some w →
    w = .string (String.ofList (rendered params TwValue.toText p ++ q ++ ['\x7d']))
  part : params.find? (String.ofList (p ++ '\x7d' :: q)) = none →
    ∀ v, params.find? (String.ofList p) = some v → v.toText = String.ofList ('\x7b' :: p ++ ['\x7d'])

/-- Outside the shortcut every text is scanned; one without an opening brace comes out as it is. -/
theorem resolveParam_scanned {s : String} (scanned : isPlaceholder s.toList = false) :
    resolveParam (.string s) params = .string (String.ofList (fillFrom params TwValue.toText none s.toList)) := by
  rw [resolveParam, scanned, if_neg Bool.false_ne_true]
  by_cases opens : '\x7b' ∈ s.toList
  · rw [if_neg (by simp [opens])]
  · rw [if_pos (by simp [opens]), fillFrom_plain opens, String.ofList_toList]

/-- The shortcut reads all that stands between the outer braces as one name. -/
theorem resolveParam_shortcut {name : List Char} (nonempty : name ≠ []) (noOpen : '\x7b' ∉ name) :
    resolveParam (.string (String.ofList ('\x7b' :: name ++ ['\x7d']))) params =
      (params.find? (String.ofList name)).getD (.string (String.ofList ('\x7b' :: name ++ ['\x7d']))) := by
  have placeholder := isPlaceholder_iff.mpr ⟨name, nonempty, noOpen, rfl⟩
  have inside : ('\x7b' :: name ++ ['\x7d']).tail.dropLast = name := by simp
  rw [resolveParam, String.toList_ofList, if_pos placeholder, inside]

theorem shortcutAgrees_iff {s : String} {p q : List Char} (openP : '\x7b' ∉ p) (closed : '\x7d' ∉ p)
    (openQ : '\x7b' ∉ q) (text : s.toList = '\x7b' :: p ++ '\x7d' :: q ++ ['\x7d']) :
    resolveParam (.string s) params = .string (String.ofList (fillFrom params TwValue.toText none s.toList)) ↔
      ShortcutAgrees params p q := by
  obtain rfl : s = String.ofList ('\x7b' :: p ++ '\x7d' :: q ++ ['\x7d']) := by rw [← text, String.ofList_toList]
  have shortcut : resolveParam (.string (String.ofList ('\x7b' :: (p ++ '\x7d' :: q) ++ ['\x7d']))) params = _ :=
    resolveParam_shortcut (by simp) (by simp [openP, openQ])
  have scan : fillFrom params TwValue.toText none ('\x7b' :: p ++ '\x7d' :: q ++ ['\x7d']) =
      rendered params TwValue.toText p ++ q ++ ['\x7d'] := by
    have pieces : '\x7b' :: p ++ '\x7d' :: q ++ ['\x7d'] = '\x7b' :: p ++ '\x7d' :: (q ++ ['\x7d']) := by simp
    rw [pieces, fillFrom_placeholder closed, fillFrom_plain (by simp [openQ]), List.append_assoc]
  rw [← List.cons_append] at shortcut
  rw [shortcut, String.toList_ofList, scan]
  cases whole : params.find? (String.ofList (p ++ '\x7d' :: q)) with
  | some w =>
    rw [Option.getD_some]
    refine ⟨fun same => ⟨fun w' found => ?_, fun missing => ?_⟩, fun agrees => agrees.whole w whole⟩
    · rw [whole] at found
      exact Option.some.inj found ▸ same
    · rw [whole] at missing
      cases missing
  | none =>
    rw [Option.getD_none, TwValue.string.injEq, String.ofList_inj]
    constructor
    · intro same
      refine ⟨fun w found => ?_, fun _ v found => ?_⟩
      · rw [whole] at found
        cases found
      · rw [rendered, found] at same
        have pieces : '\x7b' :: p ++ '\x7d' :: q ++ ['\x7d'] = '\x7b' :: p ++ ['\x7d'] ++ q ++ ['\x7d'] := by simp
        rw [pieces, List.append_left_inj, List.append_left_inj] at same
        rw [same, Option.map_some, Option.getD_some, String.ofList_toList]
    · intro agrees
      have part := agrees.part whole
      rw [rendered]
      cases found : params.find? (String.ofList p) with
      | none => simp
      | some v => simp [part v found]

/-- `resolve_param` gives every text but a lone placeholder the meaning of the scan exactly if no text `{p}q}` is taken
    for a placeholder that the parameters tell from it. -/
theorem resolveParam_filled_iff (s : String) (params : Params F)
    (notSingle : ∀ name, name ≠ [] → '\x7b' ∉ name → '\x7d' ∉ name → s.toList ≠ '\x7b' :: name ++ ['\x7d']) :
    (∃ out, Filled params s.toList out ∧ resolveParam (.string s) params = .string (String.ofList out)) ↔
      ∀ p q, '\x7b' ∉ p → '\x7d' ∉ p → '\x7b' ∉ q → s.toList = '\x7b' :: p ++ '\x7d' :: q ++ ['\x7d'] →
        ShortcutAgrees params p q := by
  have meaning : (∃ out, Filled params s.toList out ∧ resolveParam (.string s) params = .string (String.ofList out)) ↔
      resolveParam (.string s) params = .string (String.ofList (fillFrom params TwValue.toText none s.toList)) := by
    simp only [filled_iff, exists_eq_left]
  rw [meaning]
  cases taken : isPlaceholder s.toList with
  | false =>
    refine iff_of_true (resolveParam_scanned taken) fun p q openP _ openQ text => ?_
    have placeholder : isPlaceholder s.toList = true :=
      isPlaceholder_iff.mpr ⟨p ++ '\x7d' :: q, by simp, by simp [openP, openQ], text⟩
    rw [taken] at placeholder
    cases placeholder
  | true =>
    obtain ⟨name, nonempty, noOpen, text⟩ := isPlaceholder_iff.mp taken
    have closes : '\x7d' ∈ name := by
      by_contra closed
      exact notSingle name nonempty noOpen closed text
    obtain ⟨p, q, rfl, closed⟩ := List.eq_append_cons_of_mem closes
    simp only [List.mem_append, List.mem_cons, not_or] at noOpen
    rw [← List.cons_append] at text
    constructor
    · intro same p' q' openP closed' openQ text'
      exact (shortcutAgrees_iff openP closed' openQ text').mp same
    · intro agrees
      exact (shortcutAgrees_iff noOpen.1 closed noOpen.2.2 text).mpr (agrees p q noOpen.1 closed noOpen.2.2 text)

theorem resolveParam_filled_joined :
    let params : Params Int := OrderedMap.empty.set "a" (.int 4)
    (∀ name, name ≠ [] → '\x7b' ∉ name → '\x7d' ∉ name → "bay-\x7ba\x7d".toList ≠ '\x7b' :: name ++ ['\x7d']) ∧
      ∃ out, Filled params "bay-\x7ba\x7d".toList out ∧
        resolveParam (.string "bay-\x7ba\x7d") params = .string (String.ofList out) := by
  intro params
  have starts (rest : List Char) : "bay-\x7ba\x7d".toList ≠ '\x7b' :: rest := by
    intro same
    have first : some 'b' = some '\x7b' := congrArg List.head? same
    exact absurd first (by decide)
  have notSingle : ∀ name, name ≠ [] → '\x7b' ∉ name → '\x7d' ∉ name →
      "bay-\x7ba\x7d".toList ≠ '\x7b' :: name ++ ['\x7d'] := fun name _ _ _ => starts _
  exact ⟨notSingle, (resolveParam_filled_iff _ params notSingle).mpr fun p q _ _ _ same => absurd same (starts _)⟩

/-- `{a}b}` is no lone placeholder and `a` is bound, yet the text comes back as it was. -/
theorem resolveParam_skips_placeholder :
    let params : Params Int := OrderedMap.empty.set "a" (.int 4)
    (∀ name, '\x7d' ∉ name → "\x7ba\x7db\x7d".toList ≠ '\x7b' :: name ++ ['\x7d']) ∧
      Filled params "\x7ba\x7db\x7d".toList "4b\x7d".toList ∧
      resolveParam (.string "\x7ba\x7db\x7d") params = .string "\x7ba\x7db\x7d" ∧
      ¬∃ out, Filled params "\x7ba\x7db\x7d".toList out ∧
        resolveParam (.string "\x7ba\x7db\x7d") params = .string (String.ofList out) := by
  intro params
  have scanned : "4b\x7d".toList = fillFrom params TwValue.toText none "\x7ba\x7db\x7d".toList := by decide
  have kept : resolveParam (.string "\x7ba\x7db\x7d") params = .string "\x7ba\x7db\x7d" := by decide
  refine ⟨fun name closed same => ?_, filled_iff.mpr scanned, kept, ?_⟩
  · have inside : name = "a\x7db".toList := by simpa using (congrArg (List.dropLast ∘ List.tail) same).symm
    exact closed (by rw [inside]; decide)
  · rintro ⟨out, filled, same⟩
    rw [filled.eq_fillFrom, ← scanned, kept] at same
    exact absurd same (by decide)

end TwLoader
end WeftWarp
