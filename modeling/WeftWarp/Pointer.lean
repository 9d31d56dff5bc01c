import WeftWarp.Value

/-! # Templates and pointers

How `tw_loader.hpp` fills the placeholders of a template from the parameters of a call, and how it reads a JSON
Pointer as the variable and key it stands for. -/

namespace WeftWarp
namespace TwLoader
variable {F : Type} [Cxx F]

abbrev Params (F : Type) := OrderedMap String (TwValue F)

/-! ### Templates -/

/-- The scan that replaces each placeholder whose name is bound. The name read so far stands in the first argument
    while the scan is inside braces. -/
def fillFrom (params : Params F) (render : TwValue F → String) : Option (List Char) → List Char → List Char
  | none, [] => []
  | none, c :: cs => if c = '\x7b' then fillFrom params render (some []) cs else c :: fillFrom params render none cs
  -- A brace that is never closed is copied with what follows it.
  | some name, [] => '\x7b' :: name
  | some name, c :: cs =>
    if c = '\x7d' then
      (match params.find? (String.ofList name) with
        | some v => (render v).toList
        | none => '\x7b' :: name ++ ['\x7d']) ++ fillFrom params render none cs
    else fillFrom params render (some (name ++ [c])) cs

def isPlaceholder (cs : List Char) : Bool :=
  3 ≤ cs.length && cs.head? == some '\x7b' && cs.getLast? == some '\x7d' && !cs.tail.contains '\x7b'

theorem isPlaceholder_iff {cs : List Char} :
    isPlaceholder cs = true ↔ ∃ name, name ≠ [] ∧ '\x7b' ∉ name ∧ cs = '\x7b' :: name ++ ['\x7d'] := by
  simp only [isPlaceholder, Bool.and_eq_true, decide_eq_true_eq, beq_iff_eq, Bool.not_eq_true', List.contains_eq_mem,
    decide_eq_false_iff_not]
  constructor
  · rintro ⟨⟨⟨long, opens⟩, closes⟩, noOpen⟩
    obtain ⟨init, rfl⟩ := List.getLast?_eq_some_iff.mp closes
    cases init with
    | nil => simp at long
    | cons c name =>
      obtain rfl : c = '\x7b' := by simpa using opens
      refine ⟨name, ?_, fun mem => noOpen (by simp [mem]), rfl⟩
      rintro rfl
      simp at long
  · rintro ⟨name, nonempty, noOpen, rfl⟩
    have some := List.length_pos_iff.mpr nonempty
    refine ⟨⟨⟨?_, rfl⟩, List.getLast?_concat⟩, by simp [noOpen]⟩
    simp only [List.length_append, List.length_cons, List.length_nil]
    omega

/-- `resolve_param`. A text that is one placeholder keeps the type of the value bound to it. -/
def resolveParam (val : TwValue F) (params : Params F) : TwValue F :=
  match val with
  | .string s =>
    if isPlaceholder s.toList then (params.find? (String.ofList (s.toList.tail.dropLast))).getD val
    else if !s.toList.contains '\x7b' then val
    else .string (String.ofList (fillFrom params TwValue.toText none s.toList))
  | _ => val

/-! ### JSON Pointers -/

def escapeRfc6901 (s : String) : String :=
  String.ofList (s.toList.flatMap fun c => if c = '~' then ['~', '0'] else if c = '/' then ['~', '1'] else [c])

def isValidRfc6901Token : List Char → Bool
  | [] => true
  | ['~'] => false
  | '~' :: c :: cs => (c == '0' || c == '1') && isValidRfc6901Token cs
  | _ :: cs => isValidRfc6901Token cs

/-- One pass of `unescape_rfc6901`: each `~` followed by `digit` becomes `by'`. -/
def unescapePass (digit by' : Char) : List Char → List Char
  | [] => []
  | '~' :: c :: cs =>
    if c = digit then by' :: unescapePass digit by' cs else '~' :: unescapePass digit by' (c :: cs)
  | c :: cs => c :: unescapePass digit by' cs

def unescapeRfc6901 (t : List Char) : String := String.ofList (unescapePass '0' '~' (unescapePass '1' '/' t))

def substitutePointer (raw : String) (params : Params F) : String :=
  String.ofList (fillFrom params (fun v => escapeRfc6901 v.toText) none raw.toList)

/-- The loop of `parse_rfc6901`: the tokens so far, and the one being read. -/
def parseRfc6901From (tokens : List String) (cur : List Char) : List Char → List String
  | [] => if isValidRfc6901Token cur then tokens ++ [unescapeRfc6901 cur] else []
  | c :: cs =>
    if c = '/' then
      if isValidRfc6901Token cur then parseRfc6901From (tokens ++ [unescapeRfc6901 cur]) [] cs else []
    else parseRfc6901From tokens (cur ++ [c]) cs

/-- `parse_rfc6901`. An error gives no tokens. -/
def parseRfc6901 (ptr : String) : List String :=
  match ptr.toList with
  | '/' :: cs => parseRfc6901From [] [] cs
  | _ => []

/-- `parse_pointer`: variable and key, the variable empty unless there are exactly two tokens. -/
def parsePointer (ptr : String) (params : Params F) : String × TwValue F :=
  match parseRfc6901 (substitutePointer ptr params) with
  | [var, key] => (var, .string key)
  | _ => ("", .nil)

end TwLoader
end WeftWarp
