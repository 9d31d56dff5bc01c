import WeftWarp.Nif
import WeftWarp.Theorems.JsonReads

/-! # Plans and their text

`plan_to_json` quotes without escaping, and `parse_plan` reads every argument as a string. A plan comes back with its
arguments rendered exactly as long as no quote or backslash stands in it. -/

namespace WeftWarp

open TwJson TwLoader Nif

variable {F : Type} [CxxMath F]

/-! ### Quoted texts -/

/-- No character of the text is read as the end of a string or as an escape. -/
def Clean (s : String) : Prop := ∀ c ∈ s.toList, c ≠ '"' ∧ c ≠ '\\'

instance (s : String) : Decidable (Clean s) := List.decidableBAll (fun c => c ≠ '"' ∧ c ≠ '\\') s.toList

/-- A text between quotes, as it is. -/
def quoted (s : String) : List Char := '"' :: s.toList ++ ['"']

theorem reads_quoted {s : String} (clean : Clean s) : Reads (quoted s) (.ok (.string s : TwValue F)) := by
  have reads : Reads (quoted s) (.ok (.string (String.ofList s.toList) : TwValue F)) := reads_string (spells_raw clean)
  rwa [String.ofList_toList] at reads

/-! ### Lists with a space behind the comma -/

/-- The elements of a list with the space that `", "` puts in front of all but the first. -/
def spaced : List (List Char) → List (List Char)
  | [] => []
  | t :: ts => t :: ts.map (' ' :: ·)

theorem intercalate_spaced (ts : List (List Char)) : [',', ' '].intercalate ts = [','].intercalate (spaced ts) := by
  cases ts with
  | nil => rfl
  | cons t ts =>
    rw [spaced, intercalate_comma]
    induction ts generalizing t with
    | nil => simp
    | cons u ts ih => rw [List.intercalate_cons_cons, ih, List.map_cons, List.flatMap_cons]; simp

variable {ts : List (List Char)} {fuel : Nat} {p : Cursor} {t : List Char} {vs arr : List (TwValue F)} {c : TwCall F}
  {v : TwValue F} {P : TwValue F → Prop}

theorem padded_spaced (reads : List.Forall₂ (fun t v => Reads t (.ok v)) ts vs) :
    List.Forall₂ Padded (spaced ts) (vs.map .ok) := by
  cases reads with
  | nil => exact .nil
  | cons head tail =>
    refine .cons head.padded ?_
    rw [List.forall₂_map_left_iff, List.forall₂_map_right_iff]
    exact tail.imp fun _ _ reads => reads.padded.lead blank_space

theorem reads_spaced (reads : List.Forall₂ (fun t v => Reads t (.ok v)) ts vs) :
    Reads ('[' :: [',', ' '].intercalate ts ++ [']']) (.ok (.array vs)) := by
  have array := reads_array (padded_spaced reads)
  rwa [collect_ok, ← intercalate_spaced] at array

/-! ### Plans -/

/-- A call whose name and rendered arguments can be quoted as they are. -/
structure Printable (c : TwCall F) : Prop where
  name : Clean c.name
  args : ∀ arg ∈ c.args, Clean arg.toText

/-- A call as its text has it: every argument is its rendering. -/
def asText (c : TwCall F) : TwCall F := ⟨c.name, c.args.map fun arg => .string arg.toText⟩

/-- The texts that stand between quotes. -/
def callTexts (c : TwCall F) : List String := c.name :: c.args.map TwValue.toText

theorem printable_iff : Printable c ↔ ∀ s ∈ callTexts c, Clean s := by
  rw [callTexts, List.forall_mem_cons, List.forall_mem_map]
  exact ⟨fun printable => ⟨printable.name, printable.args⟩, fun clean => ⟨clean.1, clean.2⟩⟩

theorem toList_callToJson (c : TwCall F) :
    (callToJson c).toList = '[' :: [',', ' '].intercalate ((callTexts c).map quoted) ++ [']'] := by
  have loop : ∀ (args : List (TwValue F)) (t : List Char), t ++ args.flatMap (fun arg => (", \"" ++ arg.toText ++ "\"").toList) =
      [',', ' '].intercalate (t :: (args.map TwValue.toText).map quoted) := by
    intro args
    induction args with
    | nil => simp
    | cons arg args ih =>
      intro t
      rw [List.flatMap_cons, List.map_cons, List.map_cons, List.intercalate_cons_cons, ← ih]
      simp [quoted]
  rw [callTexts, List.map_cons, ← loop]
  simp [callToJson, quoted, List.flatMap_map]

theorem toList_planToJson (plan : List (TwCall F)) :
    (planToJson plan).toList = '[' :: [',', ' '].intercalate (plan.map fun c => (callToJson c).toList) ++ [']'] := by
  simp [planToJson, Function.comp_def]

theorem reads_quotedList {texts : List String} (clean : ∀ s ∈ texts, Clean s) :
    List.Forall₂ (fun t v => Reads t (.ok v)) (texts.map quoted) (texts.map (TwValue.string (F := F))) := by
  rw [List.forall₂_map_left_iff, List.forall₂_map_right_iff, List.forall₂_same]
  exact fun s mem => reads_quoted (clean s mem)

/-- The value that a printed call is read as. -/
def callValue (c : TwCall F) : TwValue F := .array ((callTexts c).map .string)

theorem parseCall_callValue (c : TwCall F) : parseCall (callValue c) = some (asText c) := by
  simp [parseCall, callValue, callTexts, TwValue.asArray, TwValue.asString, asText]

theorem reads_call (printable : Printable c) : Reads (callToJson c).toList (.ok (callValue c)) := by
  rw [toList_callToJson]
  exact reads_spaced (reads_quotedList (printable_iff.mp printable))

theorem reads_calls {plan : List (TwCall F)} (printable : ∀ c ∈ plan, Printable c) :
    List.Forall₂ (fun t v => Reads t (.ok v)) (plan.map fun c => (callToJson c).toList) (plan.map callValue) := by
  rw [List.forall₂_map_left_iff, List.forall₂_map_right_iff, List.forall₂_same]
  exact fun c mem => reads_call (printable c mem)

/-- A plan is read back step by step with its arguments rendered. -/
theorem parsePlan_planToJson {plan : List (TwCall F)} (printable : ∀ c ∈ plan, Printable c) :
    parsePlan (planToJson plan) = .ok (plan.map asText) := by
  have reads := reads_spaced (reads_calls printable)
  rw [← toList_planToJson] at reads
  have parsed := reads.padded.parseJsonStr_eq
  rw [String.ofList_toList] at parsed
  rw [parsePlan, parsed]
  simp [Except.map, TwValue.asArray, List.filterMap_map, parseCall_callValue]

/-! ### Texts that are misread -/

theorem unescape_eq_slash {c : Char} (escaped : unescape c = '\\') : c = '\\' := by
  unfold unescape at escaped
  split at escaped
  · cases escaped
  · split at escaped
    · cases escaped
    · split at escaped
      · cases escaped
      · exact escaped

theorem takeWhile_readChars (cs : List Char) (quote : '"' ∈ cs) :
    ((readChars cs).1.takeWhile (· = '\\')).length = (cs.takeWhile (· = '\\')).length / 2 := by
  fun_induction readChars cs with
  | case1 => cases quote
  | case2 c cs s rest read ih =>
    by_cases slash : c = '\\'
    · subst slash
      have inside : '"' ∈ cs := by simpa using quote
      have halved := ih inside
      rw [read] at halved
      have same : unescape '\\' = '\\' := rfl
      simp only [same, decide_true, List.takeWhile_cons_of_pos, List.length_cons, halved]
      omega
    · have other : unescape c ≠ '\\' := fun eq => slash (unescape_eq_slash eq)
      simp [other, slash]
  | case3 cs notEscape => simp
  | case4 c cs notEscape notQuote s rest read ih =>
    have notSlash : c ≠ '\\' := by
      rintro rfl
      cases cs with
      | nil => simp at quote
      | cons d ds => exact notEscape d ds rfl rfl
    simp [notSlash]

/-- A text is read back between quotes only if it is clean. -/
theorem clean_of_readChars : ∀ {s rest : List Char}, (readChars (s ++ '"' :: rest)).1 = s → ∀ c ∈ s, c ≠ '"' ∧ c ≠ '\\'
  | [], _, _ => by simp
  | c :: s, rest, same => by
    have notSlash : c ≠ '\\' := by
      rintro rfl
      have halved := takeWhile_readChars ('\\' :: s ++ '"' :: rest) (by simp)
      have run : (('\\' :: s ++ '"' :: rest).takeWhile (· = '\\')).length = (('\\' :: s).takeWhile (· = '\\')).length := by
        rw [List.takeWhile_append]
        split
        · rename_i whole
          rw [whole, List.takeWhile_cons_of_neg (by decide), List.append_nil]
        · rfl
      rw [same, run] at halved
      simp at halved
      omega
    have notQuote : c ≠ '"' := by
      rintro rfl
      cases s <;> simp [readChars] at same
    rw [List.cons_append, readChars_raw notQuote notSlash] at same
    have rest := clean_of_readChars (List.cons.inj same).2
    exact List.forall_mem_cons.mpr ⟨⟨notQuote, notSlash⟩, rest⟩

/-- Whatever the parser answers on the text has the property, with any text behind it. -/
structure Answers (t : List Char) (P : TwValue F → Prop) : Prop where
  opens : ∃ c cs, t = c :: cs ∧ isSpace c = false ∧ c ≠ ']'
  answers : ∀ fuel rest past v p, t.length ≤ fuel → parseJson fuel ⟨t ++ rest, past⟩ = .ok (v, p) → P v

theorem answers_quoted {s : String} (unclean : ¬ Clean s) :
    Answers (F := F) (quoted s) fun v => ∃ s', v = .string s' ∧ s' ≠ s where
  opens := ⟨'"', s.toList ++ ['"'], rfl, rfl, by decide⟩
  answers fuel rest past v p bound parsed := by
    obtain ⟨n, rfl⟩ : ∃ n, fuel = n + 1 := ⟨fuel - 1, by simp [quoted] at bound; omega⟩
    have text : quoted s ++ rest = '"' :: (s.toList ++ '"' :: rest) := by simp [quoted]
    rw [text, parseJson, skipWs_cons (by rfl)] at parsed
    simp only [if_true, parseJsonString, Cursor.next, Except.ok.injEq, Prod.mk.injEq] at parsed
    refine ⟨_, parsed.1.symm, fun same => ?_⟩
    have read := congrArg String.toList same
    rw [String.toList_ofList] at read
    exact unclean (clean_of_readChars read)

/-- The loop keeps what it has read. -/
theorem parseElements_extends {q : Cursor} (parsed : parseElements fuel p arr = .ok (v, q)) :
    ∃ more, v = .array (arr ++ more) := by
  induction fuel generalizing p arr with
  | zero =>
    rw [parseElements] at parsed
    cases parsed
    exact ⟨[], by simp⟩
  | succ fuel ih =>
    rw [parseElements] at parsed
    split at parsed
    · cases parsed
      exact ⟨[], by simp⟩
    · split at parsed
      · cases parsed
      · rename_i w p' _
        simp only at parsed
        split at parsed
        · obtain ⟨more, rfl⟩ := ih parsed
          exact ⟨w :: more, by simp⟩
        · split at parsed <;> cases parsed <;> exact ⟨[w], rfl⟩

theorem parseElements_first {q : Cursor} (inside : p.rest ≠ []) (parsed : parseElements (fuel + 1) p arr = .ok (v, q)) :
    ∃ w p' more, parseJson fuel p = .ok (w, p') ∧ v = .array (arr ++ w :: more) := by
  rw [parseElements, if_neg (by simpa using inside)] at parsed
  split at parsed
  · cases parsed
  · rename_i w p' read
    simp only at parsed
    split at parsed
    · obtain ⟨more, rfl⟩ := parseElements_extends parsed
      exact ⟨w, p', more, read, by simp⟩
    · split at parsed <;> cases parsed <;> exact ⟨w, p', [], read, rfl⟩

theorem parseElements_answers {us : List (List Char)} (padded : List.Forall₂ Padded ts (vs.map .ok)) {ws : List Char}
    (blank : Blank ws) (answers : Answers t P) (bound : ([','].intercalate (ts ++ (ws ++ t) :: us)).length < fuel)
    {rest : List Char} {past : Nat}
    (parsed : parseElements fuel ⟨[','].intercalate (ts ++ (ws ++ t) :: us) ++ rest, past⟩ arr = .ok (v, p)) :
    ∃ w more, v = .array (arr ++ vs ++ w :: more) ∧ P w := by
  obtain ⟨n, rfl⟩ : ∃ n, fuel = n + 1 := ⟨fuel - 1, by omega⟩
  induction ts generalizing vs n arr with
  | nil =>
    obtain rfl : vs = [] := by
      cases vs with
      | nil => rfl
      | cons v vs => cases padded
    obtain ⟨c, cs, open', notSpace, notBracket⟩ := answers.opens
    rw [List.nil_append, intercalate_comma] at bound parsed
    obtain ⟨w, p', more, read, rfl⟩ := parseElements_first (by simp [open']) parsed
    rw [List.append_assoc, List.append_assoc, parseJson_blank blank (by simp [open'] at bound; omega)] at read
    exact ⟨w, more, by simp, answers.answers n _ past w p' (by simp at bound; omega) read⟩
  | cons t' ts ih =>
    obtain ⟨v', vs', rfl, head, tail⟩ : ∃ v' vs', vs = v' :: vs' ∧ Padded t' (.ok v') ∧ List.Forall₂ Padded ts (vs'.map .ok) := by
      cases vs with
      | nil => cases padded
      | cons v' vs' =>
        obtain ⟨head, tail⟩ := List.forall₂_cons.mp padded
        exact ⟨v', vs', rfl, head, tail⟩
    have joined : [','].intercalate (t' :: ts ++ (ws ++ t) :: us) = t' ++ ',' :: [','].intercalate (ts ++ (ws ++ t) :: us) := by
      cases ts <;> simp [List.intercalate_cons_cons]
    rw [joined, List.length_append, List.length_cons] at bound
    obtain ⟨m, rfl⟩ : ∃ m, n = m + 1 := ⟨n - 1, by omega⟩
    rw [joined, List.append_assoc, List.cons_append, head.round (by omega) (.inl rfl)] at parsed
    obtain ⟨w, more, rfl, holds⟩ := ih tail m (by omega) parsed
    exact ⟨w, more, by simp, holds⟩

theorem answers_spaced {us : List (List Char)} (reads : List.Forall₂ (fun t v => Reads t (.ok v)) ts vs)
    (answers : Answers t P) :
    Answers ('[' :: [',', ' '].intercalate (ts ++ t :: us) ++ [']']) fun v => ∃ w more, v = .array (vs ++ w :: more) ∧ P w where
  opens := ⟨'[', [',', ' '].intercalate (ts ++ t :: us) ++ [']'], rfl, rfl, by decide⟩
  answers fuel rest past v p bound parsed := by
    obtain ⟨n, rfl⟩ : ∃ n, fuel = n + 1 := ⟨fuel - 1, by simp at bound; omega⟩
    have lead : ∃ ws, Blank ws ∧ spaced (ts ++ t :: us) = spaced ts ++ (ws ++ t) :: us.map (' ' :: ·) := by
      cases ts with
      | nil => exact ⟨[], blank_nil, rfl⟩
      | cons u ts => exact ⟨[' '], blank_space, by simp [spaced]⟩
    obtain ⟨ws, blank, eq⟩ := lead
    have first : ∃ c cs, [',', ' '].intercalate (ts ++ t :: us) = c :: cs ∧ isSpace c = false ∧ c ≠ ']' := by
      have head : ∃ u us', ts ++ t :: us = u :: us' ∧ ∃ c cs, u = c :: cs ∧ isSpace c = false ∧ c ≠ ']' := by
        cases reads with
        | nil => exact ⟨t, us, rfl, answers.opens⟩
        | cons head tail => exact ⟨_, _, rfl, head.opens⟩
      obtain ⟨u, us', eq, c, cs, rfl, solid⟩ := head
      rw [intercalate_spaced, eq, spaced, intercalate_comma]
      exact ⟨c, _, rfl, solid⟩
    obtain ⟨c, cs, open', notSpace, notBracket⟩ := first
    have text : '[' :: [',', ' '].intercalate (ts ++ t :: us) ++ [']'] ++ rest =
        '[' :: ([',', ' '].intercalate (ts ++ t :: us) ++ ']' :: rest) := by simp
    have skip : skipWs ⟨[',', ' '].intercalate (ts ++ t :: us) ++ ']' :: rest, past⟩ =
        ⟨[',', ' '].intercalate (ts ++ t :: us) ++ ']' :: rest, past⟩ := by
      rw [open', List.cons_append, skipWs_cons notSpace]
    rw [text, parseJson_array skip (by simp [open', Cursor.isAt, notBracket]), intercalate_spaced, eq] at parsed
    rw [intercalate_spaced, eq] at bound
    have found := parseElements_answers (padded_spaced reads) blank answers (by simp at bound ⊢; omega) parsed
    simpa using found

theorem exists_first {α : Type} {p : α → Prop} {l : List α} (fails : ¬ ∀ x ∈ l, p x) :
    ∃ pre x post, l = pre ++ x :: post ∧ (∀ y ∈ pre, p y) ∧ ¬ p x := by
  classical
  have found : (l.find? fun x => !p x).isSome := by
    rw [List.find?_isSome]
    push Not at fails
    simpa using fails
  obtain ⟨x, first⟩ := Option.isSome_iff_exists.mp found
  obtain ⟨fails, pre, post, split, holds⟩ := List.find?_eq_some_iff_append.mp first
  exact ⟨pre, x, post, split, by simpa using holds, by simpa using fails⟩

theorem Answers.imp {Q : TwValue F → Prop} (answers : Answers t P) (weaker : ∀ v, P v → Q v) : Answers t Q where
  opens := answers.opens
  answers fuel rest past v p bound parsed := weaker v (answers.answers fuel rest past v p bound parsed)

/-- A call that cannot be quoted is read as a call, and as a different one. -/
theorem answers_call (unprintable : ¬ Printable c) : Answers (callToJson c).toList fun v =>
    ∃ name args, v = .array (.string name :: args) ∧ (⟨name, args⟩ : TwCall F) ≠ asText c := by
  obtain ⟨pre, s, post, split, clean, unclean⟩ := exists_first (printable_iff.not.mp unprintable)
  rw [toList_callToJson, split, List.map_append, List.map_cons]
  refine (answers_spaced (reads_quotedList clean) (answers_quoted unclean)).imp ?_
  rintro v ⟨w, more, rfl, s', rfl, other⟩
  have texts : (asText c).name :: (asText c).args.map TwValue.asString = pre ++ s :: post := by
    rw [← split, callTexts, asText, List.map_map]
    rfl
  cases pre with
  | nil =>
    refine ⟨s', more, rfl, fun same => other ?_⟩
    rw [← same] at texts
    exact (List.cons.inj texts).1
  | cons name pre =>
    refine ⟨name, pre.map .string ++ .string s' :: more, rfl, fun same => other ?_⟩
    rw [← same, List.map_append, List.map_map, List.map_cons] at texts
    have tail := (List.cons.inj texts).2
    have front : (pre.map (TwValue.asString ∘ TwValue.string (F := F))) = pre := List.map_id pre
    rw [front] at tail
    exact (List.cons.inj (List.append_cancel_left tail)).1

/-- Exactly the plans without a quote or a backslash in a name or in a rendered argument survive their text form: each
    step comes back with its name and its arguments rendered. -/
theorem parsePlan_planToJson_iff (plan : List (TwCall F)) :
    parsePlan (planToJson plan) = .ok (plan.map asText) ↔ ∀ c ∈ plan, Printable c := by
  refine ⟨fun same => ?_, parsePlan_planToJson⟩
  by_contra unprintable
  obtain ⟨pre, c, post, split, printable, fails⟩ := exists_first unprintable
  have answers : Answers (planToJson plan).toList fun v => ∃ w more, v = .array (pre.map callValue ++ w :: more) ∧
      ∃ name args, w = .array (.string name :: args) ∧ (⟨name, args⟩ : TwCall F) ≠ asText c := by
    rw [toList_planToJson, split, List.map_append, List.map_cons]
    exact answers_spaced (reads_calls printable) (answers_call fails)
  rw [parsePlan, parseJsonStr] at same
  cases read : parseJson (F := F) (2 * (planToJson plan).toList.length + 1) ⟨(planToJson plan).toList, 0⟩ with
  | error e => rw [read] at same; cases same
  | ok vp =>
    obtain ⟨v, p⟩ := vp
    rw [read] at same
    rw [← List.append_nil (planToJson plan).toList] at read
    obtain ⟨w, more, rfl, name, args, rfl, other⟩ := answers.answers _ [] 0 v p (by simp; omega) read
    have calls : (pre.map callValue ++ .array (.string name :: args) :: more).filterMap parseCall =
        pre.map asText ++ ⟨name, args⟩ :: more.filterMap parseCall := by
      have front : pre.filterMap (parseCall ∘ callValue) = pre.map asText := by
        rw [← List.filterMap_eq_map]
        exact List.filterMap_congr fun c _ => parseCall_callValue c
      rw [List.filterMap_append, List.filterMap_map, front]
      rfl
    have steps := Except.ok.inj same
    simp only [TwValue.asArray, calls, split, List.map_append, List.map_cons] at steps
    exact other (List.cons.inj (List.append_cancel_left steps)).1

/-- A plan that quotes a word. -/
def greeting : List (TwCall Int) := [⟨"say", [.string "\"hi\""]⟩, ⟨"wave", []⟩]

/-- The quotation mark ends the argument, and the rest of the plan is lost. -/
theorem parsePlan_greeting :
    parsePlan (F := Int) (planToJson greeting) = .ok [⟨"say", [.string ""]⟩] ∧
      parsePlan (F := Int) (planToJson greeting) ≠ .ok (greeting.map asText) := by
  decide +kernel

end WeftWarp
