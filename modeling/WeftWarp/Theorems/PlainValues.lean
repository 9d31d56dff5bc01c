import WeftWarp.Theorems.PointerCoding
import WeftWarp.Validate

/-! # Values without braces

A value is plain if no text in it has a brace and no object is in it. Filling in plain values leaves no brace if every
placeholder is bound, and no node makes one. -/

namespace WeftWarp

open TwLoader
open JsonldLoader (varRefs refsOf refsOfList refsOfEntries)

/-! ## Texts -/

/-- An opening or a closing brace. -/
def isBrace (c : Char) : Bool := c == '\x7b' || c == '\x7d'

/-- No character is a brace. -/
def plainChars (cs : List Char) : Bool := cs.all fun c => !isBrace c

/-- A text without braces. -/
def plainText (s : String) : Bool := plainChars s.toList

theorem plainChars_iff {cs : List Char} : plainChars cs = true ↔ ∀ c ∈ cs, isBrace c = false := by
  simp [plainChars]

theorem plainChars_of_subset {cs ds : List Char} (plain : plainChars ds = true) (sub : cs ⊆ ds) :
    plainChars cs = true :=
  plainChars_iff.mpr fun c mem => plainChars_iff.mp plain c (sub mem)

theorem plainChars_append {cs ds : List Char} : plainChars (cs ++ ds) = (plainChars cs && plainChars ds) := by
  simp [plainChars]

theorem plainText_append {s t : String} : plainText (s ++ t) = (plainText s && plainText t) := by
  rw [plainText, String.toList_append, plainChars_append, plainText, plainText]

@[simp] theorem plainText_ofList {cs : List Char} : plainText (String.ofList cs) = plainChars cs := by
  rw [plainText, String.toList_ofList]

theorem plainText_intercalate {sep : String} (plainSep : plainText sep = true) : ∀ {texts : List String},
    (∀ t ∈ texts, plainText t = true) → plainText (sep.intercalate texts) = true
  | [], _ => rfl
  | [t], plain => by simpa using plain t List.mem_cons_self
  | t :: u :: texts, plain => by
    obtain ⟨first, rest⟩ := List.forall_mem_cons.mp plain
    rw [String.intercalate_cons_cons, plainText_append, plainText_append, first, plainSep]
    exact plainText_intercalate plainSep rest

theorem char_of_numeral {i : Int} {c : Char} (mem : c ∈ (toString i).toList) : c.isDigit = true ∨ c = '-' := by
  have digits (n : Nat) (mem : c ∈ n.repr.toList) : c.isDigit = true :=
    Nat.isDigit_of_mem_toDigits (by decide) (by decide) (Nat.toList_repr ▸ mem)
  rw [Int.toString_eq_repr] at mem
  cases i with
  | ofNat n => exact .inl (digits n mem)
  | negSucc n =>
    rw [Int.repr, String.toList_append] at mem
    rcases List.mem_append.mp mem with mem | mem
    · exact .inr (by simpa using mem)
    · exact .inl (digits _ mem)

theorem plainText_numeral (i : Int) : plainText (toString i) = true := by
  refine plainChars_iff.mpr fun c mem => ?_
  rcases char_of_numeral mem with digit | rfl
  · by_contra brace
    simp only [isBrace, Bool.not_eq_false, Bool.or_eq_true, beq_iff_eq] at brace
    rcases brace with rfl | rfl <;> exact absurd digit (by decide)
  · decide

/-! ## Values -/

variable {F : Type}

mutual

/-- No text with a brace and no object. -/
def plain : TwValue F → Bool
  | .string s => plainText s
  | .array xs => plainList xs
  | .dict _ => false
  | _ => true

/-- The values are plain. -/
def plainList : List (TwValue F) → Bool
  | [] => true
  | x :: xs => plain x && plainList xs

end

theorem plainList_iff : ∀ {xs : List (TwValue F)}, plainList xs = true ↔ ∀ x ∈ xs, plain x = true
  | [] => by simp [plainList]
  | x :: xs => by rw [plainList, Bool.and_eq_true, plainList_iff, List.forall_mem_cons]

theorem plain_element {v x : TwValue F} (isPlain : plain v = true) (mem : x ∈ v.asArray) : plain x = true := by
  cases v with
  | array xs => exact plainList_iff.mp isPlain x mem
  | _ => cases mem

theorem plain_getD {o : Option (TwValue F)} (isPlain : ∀ v, o = some v → plain v = true) : plain (o.getD .nil) = true := by
  cases o with
  | none => rfl
  | some v => exact isPlain v rfl

mutual

theorem plainText_toText [Cxx F] (renders : ∀ f : F, plainText (Cxx.render f) = true) :
    ∀ {v : TwValue F}, plain v = true → plainText v.toText = true
  | .nil, _ => by
    rw [TwValue.toText]
    rfl
  | .bool b, _ => by
    rw [TwValue.toText]
    cases b <;> rfl
  | .int i, _ => plainText_numeral i.toInt
  | .float f, _ => renders f
  | .string s, isPlain => isPlain
  | .array xs, isPlain => by
    rw [TwValue.toText, plainText_append, plainText_append,
      plainText_intercalate (by rfl) (plainText_toTexts renders isPlain)]
    rfl
  | .dict kvs, isPlain => by cases isPlain

theorem plainText_toTexts [Cxx F] (renders : ∀ f : F, plainText (Cxx.render f) = true) :
    ∀ {xs : List (TwValue F)}, plainList xs = true → ∀ t ∈ TwValue.toTexts xs, plainText t = true
  | [], _ => by simp [TwValue.toTexts]
  | x :: xs, isPlain => by
    rw [plainList, Bool.and_eq_true] at isPlain
    exact List.forall_mem_cons.mpr ⟨plainText_toText renders isPlain.1, plainText_toTexts renders isPlain.2⟩

end

/-! ## Pointer texts -/

theorem plainText_escapeRfc6901 {s : String} (isPlain : plainText s = true) : plainText (escapeRfc6901 s) = true := by
  rw [escapeRfc6901, plainText_ofList, plainChars_iff]
  intro c mem
  obtain ⟨d, inside, from'⟩ := List.mem_flatMap.mp mem
  have plainD := plainChars_iff.mp isPlain d inside
  split at from'
  · simp only [List.mem_cons, List.not_mem_nil, or_false] at from'
    rcases from' with rfl | rfl <;> rfl
  · split at from'
    · simp only [List.mem_cons, List.not_mem_nil, or_false] at from'
      rcases from' with rfl | rfl <;> rfl
    · rw [List.mem_singleton.mp from']
      exact plainD

theorem mem_unescapePass {digit by' c : Char} : ∀ {cs : List Char}, c ∈ unescapePass digit by' cs → c = by' ∨ c ∈ cs := by
  intro cs
  fun_induction unescapePass digit by' cs with
  | case1 => exact .inr
  | case2 cs ih =>
    intro mem
    rcases List.mem_cons.mp mem with rfl | mem
    · exact .inl rfl
    · exact (ih mem).imp_right fun mem => List.mem_cons_of_mem _ (List.mem_cons_of_mem _ mem)
  | case3 d cs other ih =>
    intro mem
    rcases List.mem_cons.mp mem with rfl | mem
    · exact .inr List.mem_cons_self
    · exact (ih mem).imp_right (List.mem_cons_of_mem _)
  | case4 d cs single ih =>
    intro mem
    rcases List.mem_cons.mp mem with rfl | mem
    · exact .inr List.mem_cons_self
    · exact (ih mem).imp_right (List.mem_cons_of_mem _)

theorem plainText_unescapeRfc6901 {t : List Char} (isPlain : plainChars t = true) :
    plainText (unescapeRfc6901 t) = true := by
  rw [unescapeRfc6901, plainText_ofList, plainChars_iff]
  intro c mem
  rcases mem_unescapePass mem with rfl | mem
  · rfl
  · rcases mem_unescapePass mem with rfl | mem
    · rfl
    · exact plainChars_iff.mp isPlain c mem

theorem subset_intercalate {sep token : List Char} : ∀ {tokens : List (List Char)}, token ∈ tokens →
    token ⊆ sep.intercalate tokens
  | [t], mem => by simp [List.mem_singleton.mp mem]
  | t :: u :: tokens, mem => by
    rw [List.intercalate_cons_cons]
    rcases List.mem_cons.mp mem with rfl | mem
    · exact List.subset_append_of_subset_left _ (List.subset_append_left _ _)
    · exact List.subset_append_of_subset_right _ (subset_intercalate mem)

theorem subset_of_mem_splitOn {sep : Char} {cs token : List Char} (mem : token ∈ cs.splitOn sep) : token ⊆ cs := by
  have inside : token ⊆ [sep].intercalate (cs.splitOn sep) := subset_intercalate mem
  rwa [List.intercalate_splitOn] at inside

/-! ## Templates -/

/-- Every brace belongs to a placeholder with a name. The name read so far stands in the first argument. -/
def wellBraced : Option (List Char) → List Char → Bool
  | none, [] => true
  | none, c :: cs => if c = '\x7b' then wellBraced (some []) cs else c != '\x7d' && wellBraced none cs
  | some _, [] => false
  | some name, c :: cs =>
    if c = '\x7b' then false
    else if c = '\x7d' then !name.isEmpty && wellBraced none cs
    else wellBraced (some (name ++ [c])) cs

section Templates
variable {params : Params F}

/-- The parameter is bound. -/
def Bound (params : Params F) (name : String) : Prop := (params.find? name).isSome = true

theorem varRefs_open (ref : Option (List Char)) (cs : List Char) :
    varRefs ref ('\x7b' :: cs) = varRefs (some []) cs := by
  simp [varRefs]

theorem varRefs_close {name : List Char} (named : name ≠ []) (cs : List Char) :
    varRefs (some name) ('\x7d' :: cs) = String.ofList name :: varRefs none cs := by
  cases name with
  | nil => exact absurd rfl named
  | cons d ds => simp [varRefs]

theorem varRefs_char {c : Char} (other : isBrace c = false) (ref : Option (List Char)) (cs : List Char) :
    varRefs ref (c :: cs) = varRefs (ref.map (· ++ [c])) cs := by
  simp only [isBrace, Bool.or_eq_false_iff, beq_eq_false_iff_ne, ne_eq] at other
  simp [varRefs, other]

theorem wellBraced_char {c : Char} (other : isBrace c = false) (ref : Option (List Char)) (cs : List Char) :
    wellBraced ref (c :: cs) = wellBraced (ref.map (· ++ [c])) cs := by
  simp only [isBrace, Bool.or_eq_false_iff, beq_eq_false_iff_ne, ne_eq] at other
  cases ref <;> simp [wellBraced, other]

theorem isBrace_cases (c : Char) : c = '\x7b' ∨ c = '\x7d' ∨ isBrace c = false := by
  simp only [isBrace, Bool.or_eq_false_iff, beq_eq_false_iff_ne, ne_eq]
  tauto

/-- What is filled in has no brace if every placeholder is bound to something without. -/
theorem plainChars_fillFrom {render : TwValue F → String}
    (rendered : ∀ name v, params.find? name = some v → plainText (render v) = true) {cs : List Char}
    {ref : Option (List Char)} (braced : wellBraced ref cs = true) (bound : ∀ name ∈ varRefs ref cs, Bound params name) :
    plainChars (fillFrom params render ref cs) = true := by
  induction cs generalizing ref with
  | nil =>
    cases ref with
    | none => rfl
    | some name => cases braced
  | cons c cs ih =>
    rcases isBrace_cases c with rfl | rfl | other
    · rw [varRefs_open] at bound
      cases ref with
      | none => exact ih braced bound
      | some name => cases braced
    · cases ref with
      | none => cases braced
      | some name =>
        simp only [wellBraced, Char.reduceEq, if_false, if_true, Bool.and_eq_true, Bool.not_eq_true',
          List.isEmpty_eq_false_iff] at braced
        rw [varRefs_close braced.1] at bound
        obtain ⟨named, later⟩ := List.forall_mem_cons.mp bound
        obtain ⟨v, found⟩ := Option.isSome_iff_exists.mp named
        simp only [fillFrom, if_true, found]
        rw [plainChars_append, ih braced.2 later, Bool.and_true]
        exact rendered _ v found
    · rw [varRefs_char other] at bound
      rw [wellBraced_char other] at braced
      have rest := ih braced bound
      simp only [isBrace, Bool.or_eq_false_iff, beq_eq_false_iff_ne, ne_eq] at other
      cases ref with
      | none => simpa [fillFrom, plainChars, isBrace, other] using rest
      | some name => simpa [fillFrom, other] using rest

theorem plainChars_of_wellBraced {cs : List Char} (braced : wellBraced none cs = true) (noOpen : '\x7b' ∉ cs) :
    plainChars cs = true := by
  induction cs with
  | nil => rfl
  | cons c cs ih =>
    obtain ⟨notHere, notLater⟩ := not_or.mp (mt List.mem_cons.mpr noOpen)
    rcases isBrace_cases c with rfl | rfl | other
    · exact absurd rfl notHere
    · cases braced
    · rw [wellBraced_char other] at braced
      simpa [plainChars, other] using ih braced notLater

theorem varRefs_placeholder {cs : List Char} (one : isPlaceholder cs = true) (braced : wellBraced none cs = true) :
    varRefs none cs = [String.ofList cs.tail.dropLast] := by
  -- Inside the braces stands a name without braces, behind which nothing is left but the closing one.
  have inside : ∀ {name rest : List Char}, '\x7b' ∉ rest → rest.getLast? = some '\x7d' →
      wellBraced (some name) rest = true → varRefs (some name) rest = [String.ofList (name ++ rest.dropLast)] := by
    intro name rest noOpen closes braced
    induction rest generalizing name with
    | nil => cases closes
    | cons c rest ih =>
      obtain ⟨notHere, notLater⟩ := not_or.mp (mt List.mem_cons.mpr noOpen)
      rcases isBrace_cases c with rfl | rfl | other
      · exact absurd rfl notHere
      · simp only [wellBraced, Char.reduceEq, if_false, if_true, Bool.and_eq_true, Bool.not_eq_true',
          List.isEmpty_eq_false_iff] at braced
        have tail := plainChars_of_wellBraced braced.2 notLater
        rcases List.eq_nil_or_concat' rest with rfl | ⟨front, last, rfl⟩
        · rw [varRefs_close braced.1]
          simp [varRefs]
        · obtain rfl : last = '\x7d' := by simpa [List.getLast?_cons] using closes
          exact absurd (plainChars_iff.mp tail _ (List.mem_append_right front List.mem_cons_self)) (by decide)
      · rw [varRefs_char other]
        rw [wellBraced_char other] at braced
        cases rest with
        | nil => cases braced
        | cons d rest =>
          have later := ih notLater (by simpa using closes) braced
          simpa using later
  cases cs with
  | nil => cases one
  | cons c rest =>
    simp only [isPlaceholder, Bool.and_eq_true, beq_iff_eq, List.head?_cons, Option.some.injEq, List.tail_cons,
      Bool.not_eq_true', List.contains_eq_mem, decide_eq_false_iff_not] at one
    obtain ⟨⟨⟨long, rfl⟩, closes⟩, noOpen⟩ := one
    rw [varRefs_open, List.tail_cons]
    cases rest with
    | nil => cases braced
    | cons d rest => exact inside noOpen (by simpa using closes) braced

/-- Every parameter is bound to a plain value. -/
def PlainParams (params : Params F) : Prop := ∀ name v, params.find? name = some v → plain v = true

variable [Cxx F] (renders : ∀ f : F, plainText (Cxx.render f) = true)

include renders

theorem plain_resolveParam (plainParams : PlainParams params) {s : String} (braced : wellBraced none s.toList = true)
    (bound : ∀ name ∈ varRefs none s.toList, Bound params name) : plain (resolveParam (.string s) params) = true := by
  rw [resolveParam]
  split
  · rename_i one
    rw [varRefs_placeholder one braced] at bound
    obtain ⟨v, found⟩ := Option.isSome_iff_exists.mp (bound _ List.mem_cons_self)
    rw [found, Option.getD_some]
    exact plainParams _ v found
  · split
    · rename_i noOpen
      exact plainChars_of_wellBraced braced (by simpa using noOpen)
    · rw [plain, plainText_ofList]
      exact plainChars_fillFrom (fun name v found => plainText_toText renders (plainParams name v found)) braced bound

/-- The variable and the key that a pointer stands for have no brace. -/
theorem plain_parsePointer (plainParams : PlainParams params) {ptr : String} (braced : wellBraced none ptr.toList = true)
    (bound : ∀ name ∈ varRefs none ptr.toList, Bound params name) :
    plainText (parsePointer ptr params).1 = true ∧ plain (parsePointer ptr params).2 = true := by
  have filled : plainText (substitutePointer ptr params) = true := by
    rw [substitutePointer, plainText_ofList]
    exact plainChars_fillFrom (fun name v found =>
      plainText_escapeRfc6901 (plainText_toText renders (plainParams name v found))) braced bound
  have tokens : ∀ token ∈ parseRfc6901 (substitutePointer ptr params), plainText token = true := by
    intro token mem
    by_cases slash : ∃ cs, (substitutePointer ptr params).toList = '/' :: cs
    · obtain ⟨cs, text⟩ := slash
      rw [parseRfc6901_slash text] at mem
      split at mem
      · obtain ⟨t, inside, rfl⟩ := List.mem_map.mp mem
        have sub : t ⊆ (substitutePointer ptr params).toList := by
          rw [text]
          exact fun c inT => List.mem_cons_of_mem _ (subset_of_mem_splitOn inside inT)
        exact plainText_unescapeRfc6901 (plainChars_of_subset filled sub)
      · cases mem
    · rw [parseRfc6901_of_no_slash slash] at mem
      cases mem
  rw [parsePointer]
  split
  · rename_i var key two
    rw [two] at tokens
    exact ⟨tokens var (by simp), tokens key (by simp)⟩
  · exact ⟨rfl, rfl⟩

end Templates

/-! ## Nodes -/

section Nodes
variable [CxxMath F]

/-- The node makes a plain value out of plain inputs. -/
def KeepsPlain (node : NodeFn F) : Prop :=
  ∀ a b c d, plain a = true → plain b = true → plain c = true → plain d = true → plain (node a b c d) = true

omit [CxxMath F] in
@[simp] theorem plain_floats (vs : List F) : plain (floats vs) = true := by
  rw [floats, plain, plainList_iff]
  intro v mem
  obtain ⟨f, -, rfl⟩ := List.mem_map.mp mem
  rfl

omit [CxxMath F] in
theorem plain_getElem? {a : TwValue F} (plainA : plain a = true) (i : Nat) : plain (a.asArray[i]?.getD .nil) = true :=
  plain_getD fun _ found => plain_element plainA (List.mem_of_getElem? found)

omit [CxxMath F] in
theorem keepsPlain_extract : KeepsPlain (extract : NodeFn F) := by
  intro a b c d plainA plainB plainC plainD
  rw [extract]
  split
  · exact plain_getElem? plainA _
  · rfl

theorem keepsPlain_quatConjugate : KeepsPlain (quatConjugate : NodeFn F) := by
  intro a b c d plainA plainB plainC plainD
  rw [quatConjugate]
  split
  · simpa [plain, plainList] using plain_getElem? plainA 3
  · rfl

omit [CxxMath F] in
theorem keepsPlain_combine : KeepsPlain (combine2 : NodeFn F) ∧ KeepsPlain (combine3 : NodeFn F) ∧
    KeepsPlain (combine4 : NodeFn F) := by
  refine ⟨?_, ?_, ?_⟩ <;> intro a b c d plainA plainB plainC plainD <;>
    simp [combine2, combine3, combine4, plain, plainList, plainA, plainB, plainC, plainD]

theorem keepsPlain_of_mem : ∀ entry ∈ (kNodeTypes : List (String × NodeFn F)), KeepsPlain entry.2 := by
  simp only [kNodeTypes, List.forall_mem_cons, List.not_mem_nil, false_implies, implies_true, keepsPlain_extract,
    keepsPlain_quatConjugate, keepsPlain_combine, true_and, and_true]
  repeat' apply And.intro
  -- The other nodes answer a number, a truth value, a list of numbers or one of their inputs.
  all_goals
    intro a b c d plainA plainB plainC plainD
    try simp only [unary, binary, constant, TwLoader.compare, addNode, subNode, mulNode, divNode, remNode, arith, negNode,
      absNode, smoothStep, signNode, notNode, xorNode, asrNode, lslNode, countBits, rotate2D, lengthNode, dotNode,
      TwLoader.normalize, cross, quatMul, quatAngleBetween, quatFromAxisAngle, quatSlerp, rotate3D, transform, slerp, transpose,
      determinant, inverse, matMul, matCompose, matrixNode]
    try dsimp only
    repeat' split
    all_goals first | rfl | exact plain_floats _ | assumption

end Nodes
end WeftWarp
