import Mathlib.Algebra.Ring.Nat
import WeftWarp.Theorems.PointerCoding

/-! # Pointers from templates

A template is cut into segments at the slashes of its literal pieces. Each segment gives one token, whatever the values
are that its placeholders stand for. -/

namespace WeftWarp
namespace TwLoader
variable {F : Type} [Cxx F]

/-- Text, or a parameter in braces. -/
inductive Piece where
  | literal (cs : List Char)
  | placeholder (name : List Char)
  deriving DecidableEq

namespace Piece

/-- The piece as it is written. -/
def text : Piece → List Char
  | literal cs => cs
  | placeholder name => '\x7b' :: name ++ ['\x7d']

/-- The slashes of a literal piece. -/
def slashes : Piece → Nat
  | literal cs => cs.count '/'
  | placeholder _ => 0

/-- The literal text as it is decoded, and the text of the value as it is. -/
def decoded (params : Params F) : Piece → List Char
  | literal cs => (unescapeRfc6901 cs).toList
  | placeholder name => (((params.find? (String.ofList name)).map TwValue.toText).getD "").toList

/-- What a piece becomes in the pointer. -/
def filled (params : Params F) : Piece → List Char
  | literal cs => cs
  | placeholder name => (Piece.decoded params (placeholder name)).flatMap escapeChar

/-- Its parameter has a value. -/
def IsBound (params : Params F) : Piece → Prop
  | literal _ => True
  | placeholder name => (params.find? (String.ofList name)).isSome = true

/-- A piece that stands in a template. -/
def WellFormed : Piece → Prop
  | literal cs => '\x7b' ∉ cs ∧ isValidRfc6901Token cs = true
  | placeholder name => ∀ c ∈ name, c ≠ '/' ∧ c ≠ '~' ∧ c ≠ '\x7b' ∧ c ≠ '\x7d'

/-- The segments that slashes part. -/
def segments : Piece → List (List Piece)
  | literal cs => (cs.splitOn '/').map fun part => [literal part]
  | placeholder name => [[placeholder name]]

end Piece

/-- Pieces that start with a slash. -/
structure PointerTemplate where
  pieces : List Piece
  starts : (pieces.flatMap Piece.text).head? = some '/'
  wellFormed : ∀ p ∈ pieces, p.WellFormed

/-- Two lists of segments behind each other: the last of the one goes on with the first of the other. -/
def glue {α : Type} : List (List α) → List (List α) → List (List α)
  | [], right => right
  | [last], right => right.modifyHead (last ++ ·)
  | first :: next :: left, right => first :: glue (next :: left) right

/-- The pieces between the slashes. -/
def segments : List Piece → List (List Piece)
  | [] => [[]]
  | p :: ps => glue p.segments (segments ps)

/-- The token of a segment. -/
def tokenOf (params : Params F) (segment : List Piece) : String := String.ofList (segment.flatMap (Piece.decoded params))

/-! ## Segments -/

section Glue
variable {α : Type} {left right : List (List α)}

theorem glue_cons (first : List α) (someLeft : left ≠ []) : glue (first :: left) right = first :: glue left right := by
  cases left with
  | nil => exact absurd rfl someLeft
  | cons next left => rfl

theorem length_glue (someLeft : left ≠ []) (right : List (List α)) :
    (glue left right).length + 1 = left.length + right.length := by
  induction left with
  | nil => exact absurd rfl someLeft
  | cons first left ih =>
    cases left with
    | nil => simp [glue, Nat.add_comm]
    | cons next left =>
      have rest := ih (List.cons_ne_nil _ _)
      simp only [glue, List.length_cons] at rest ⊢
      omega

theorem glue_ne_nil (someLeft : left ≠ []) (someRight : right ≠ []) : glue left right ≠ [] := by
  intro none
  have length := length_glue someLeft right
  rw [none] at length
  have one := List.length_pos_iff.mpr someLeft
  have two := List.length_pos_iff.mpr someRight
  rw [List.length_nil] at length
  omega

theorem mem_glue {segment : List α} {a : α} (mem : segment ∈ glue left right) (inside : a ∈ segment) :
    ∃ s, (s ∈ left ∨ s ∈ right) ∧ a ∈ s := by
  induction left with
  | nil => exact ⟨segment, .inr mem, inside⟩
  | cons first left ih =>
    cases left with
    | nil =>
      cases right with
      | nil => cases mem
      | cons next right =>
        rcases List.mem_cons.mp mem with rfl | later
        · rcases List.mem_append.mp inside with inFirst | inNext
          · exact ⟨first, .inl List.mem_cons_self, inFirst⟩
          · exact ⟨next, .inr List.mem_cons_self, inNext⟩
        · exact ⟨segment, .inr (List.mem_cons_of_mem next later), inside⟩
    | cons next left =>
      rcases List.mem_cons.mp mem with rfl | later
      · exact ⟨segment, .inl List.mem_cons_self, inside⟩
      · obtain ⟨s, among, inS⟩ := ih later
        exact ⟨s, among.imp_left (List.mem_cons_of_mem first), inS⟩

/-- Written with slashes between them, glued segments are the two texts behind each other. -/
theorem intercalate_glue (written : α → List Char) (someLeft : left ≠ []) (someRight : right ≠ []) :
    ['/'].intercalate ((glue left right).map (List.flatMap written)) =
      ['/'].intercalate (left.map (List.flatMap written)) ++ ['/'].intercalate (right.map (List.flatMap written)) := by
  induction left with
  | nil => exact absurd rfl someLeft
  | cons first left ih =>
    cases left with
    | nil =>
      obtain ⟨next, right, rfl⟩ := List.exists_cons_of_ne_nil someRight
      cases right <;> simp [glue]
    | cons next left =>
      have rest := ih (List.cons_ne_nil _ _)
      obtain ⟨head, tail, glued⟩ := List.exists_cons_of_ne_nil (glue_ne_nil (List.cons_ne_nil next left) someRight)
      rw [glued] at rest
      rw [glue, glued, List.map_cons, List.map_cons, List.intercalate_cons_cons, ← List.map_cons, rest]
      simp

end Glue

theorem length_splitOn (cs : List Char) : (cs.splitOn '/').length = cs.count '/' + 1 := by
  induction cs with
  | nil => rfl
  | cons c cs ih =>
    by_cases slash : c = '/'
    · subst slash
      rw [splitOn_slash, List.length_cons, ih, List.count_cons_self]
    · rw [splitOn_other slash, List.length_modifyHead, ih, List.count_cons_of_ne slash]

theorem pieceSegments_ne_nil (p : Piece) : p.segments ≠ [] := by
  cases p with
  | literal cs => exact fun none => List.splitOn_ne_nil '/' cs (List.map_eq_nil_iff.mp none)
  | placeholder name => exact List.cons_ne_nil _ _

theorem segments_ne_nil (ps : List Piece) : segments ps ≠ [] := by
  induction ps with
  | nil => exact List.cons_ne_nil _ _
  | cons p ps ih => exact glue_ne_nil (pieceSegments_ne_nil p) ih

theorem length_segments (ps : List Piece) : (segments ps).length = (ps.map Piece.slashes).sum + 1 := by
  induction ps with
  | nil => rfl
  | cons p ps ih =>
    have glued := length_glue (pieceSegments_ne_nil p) (segments ps)
    have here : p.segments.length = p.slashes + 1 := by
      cases p with
      | literal cs => rw [Piece.segments, List.length_map, length_splitOn]; rfl
      | placeholder name => rfl
    rw [segments, List.map_cons, List.sum_cons]
    omega

/-- The first segment of a text that starts with a slash is empty, and others follow. -/
theorem segments_of_starts {ps : List Piece} (starts : (ps.flatMap Piece.text).head? = some '/') :
    ∃ first rest, segments ps = first :: rest ∧ rest ≠ [] ∧ ∀ p ∈ first, p = .literal [] := by
  induction ps with
  | nil => cases starts
  | cons p ps ih =>
    cases p with
    | placeholder name => simp [Piece.text] at starts
    | literal cs =>
      cases cs with
      | nil =>
        obtain ⟨first, rest, same, others, empty⟩ := ih starts
        refine ⟨.literal [] :: first, rest, ?_, others, List.forall_mem_cons.mpr ⟨rfl, empty⟩⟩
        rw [segments, same]
        rfl
      | cons c cs =>
        obtain rfl : c = '/' := by simpa [Piece.text] using starts
        have some : (cs.splitOn '/').map (fun part => [Piece.literal part]) ≠ [] := fun none =>
          List.splitOn_ne_nil '/' cs (List.map_eq_nil_iff.mp none)
        refine ⟨[.literal []], glue ((cs.splitOn '/').map fun part => [Piece.literal part]) (segments ps), ?_,
          glue_ne_nil some (segments_ne_nil ps), by simp⟩
        rw [segments, Piece.segments, splitOn_slash, List.map_cons, glue_cons _ some]

/-! ## Filling the placeholders -/

theorem isValid_splitOn {cs : List Char} (valid : isValidRfc6901Token cs = true) :
    ∀ t ∈ cs.splitOn '/', isValidRfc6901Token t = true := by
  fun_induction isValidRfc6901Token cs with
  | case1 => simp [isValidRfc6901Token]
  | case2 => cases valid
  | case3 c cs ih =>
    obtain ⟨digit, valid⟩ := Bool.and_eq_true_iff.mp valid
    have notSlash : c ≠ '/' := by
      rintro rfl
      cases digit
    have parts := ih valid
    rw [splitOn_other (by decide), splitOn_other notSlash]
    obtain ⟨first, rest, split⟩ := List.exists_cons_of_ne_nil (List.splitOn_ne_nil '/' cs)
    rw [split] at parts ⊢
    obtain ⟨here, later⟩ := List.forall_mem_cons.mp parts
    refine List.forall_mem_cons.mpr ⟨?_, later⟩
    rw [isValid_tilde, digit, here]
    rfl
  | case4 c cs alone pair ih =>
    have notTilde : c ≠ '~' := by
      rintro rfl
      cases cs with
      | nil => exact alone rfl rfl
      | cons d cs => exact pair d cs rfl rfl
    have parts := ih valid
    by_cases slash : c = '/'
    · subst slash
      rw [splitOn_slash]
      exact List.forall_mem_cons.mpr ⟨rfl, parts⟩
    · rw [splitOn_other slash]
      obtain ⟨first, rest, split⟩ := List.exists_cons_of_ne_nil (List.splitOn_ne_nil '/' cs)
      rw [split] at parts ⊢
      obtain ⟨here, later⟩ := List.forall_mem_cons.mp parts
      exact List.forall_mem_cons.mpr ⟨(isValid_plain notTilde first).trans here, later⟩

/-- A piece between two slashes: a literal is a token by itself. -/
def Piece.InToken : Piece → Prop
  | .literal cs => '/' ∉ cs ∧ isValidRfc6901Token cs = true
  | .placeholder _ => True

theorem inToken_segments {ps : List Piece} (wellFormed : ∀ p ∈ ps, p.WellFormed) :
    ∀ segment ∈ segments ps, ∀ p ∈ segment, p.InToken := by
  induction ps with
  | nil => simp [segments]
  | cons p ps ih =>
    obtain ⟨wellFormed, rest⟩ := List.forall_mem_cons.mp wellFormed
    intro segment mem q inside
    obtain ⟨s, inHere | inRest, inS⟩ := mem_glue mem inside
    · cases p with
      | literal cs =>
        obtain ⟨part, isPart, rfl⟩ := List.mem_map.mp inHere
        obtain rfl := List.mem_singleton.mp inS
        exact ⟨slash_notMem_splitOn isPart, isValid_splitOn wellFormed.2 part isPart⟩
      | placeholder name =>
        obtain rfl := List.mem_singleton.mp inHere
        obtain rfl := List.mem_singleton.mp inS
        trivial
    · exact ih rest s inRest q inS

section Fill
variable {params : Params F} {render : TwValue F → String}

/-- What a placeholder becomes: the text of the value bound to its name, or itself. -/
def rendered (params : Params F) (render : TwValue F → String) (name : List Char) : List Char :=
  ((params.find? (String.ofList name)).map fun v => (render v).toList).getD ('\x7b' :: name ++ ['\x7d'])

omit [Cxx F] in
theorem fillFrom_closed (read : List Char) {name : List Char} (closed : '\x7d' ∉ name) (cs : List Char) :
    fillFrom params render (some read) (name ++ '\x7d' :: cs) =
      rendered params render (read ++ name) ++ fillFrom params render none cs := by
  induction name generalizing read with
  | nil =>
    rw [List.nil_append, fillFrom, if_pos rfl, List.append_nil, rendered]
    cases params.find? (String.ofList read) <;> rfl
  | cons c name ih =>
    rw [List.mem_cons, not_or] at closed
    rw [List.cons_append, fillFrom, if_neg (Ne.symm closed.1), ih (read ++ [c]) closed.2, List.append_assoc,
      List.singleton_append]

omit [Cxx F] in
theorem fillFrom_literal {cs : List Char} (noOpen : '\x7b' ∉ cs) (rest : List Char) :
    fillFrom params render none (cs ++ rest) = cs ++ fillFrom params render none rest := by
  induction cs with
  | nil => rfl
  | cons c cs ih =>
    rw [List.mem_cons, not_or] at noOpen
    rw [List.cons_append, fillFrom, if_neg (Ne.symm noOpen.1), ih noOpen.2]
    rfl

omit [Cxx F] in
/-- A text without an opening brace comes out as it is. -/
theorem fillFrom_plain {cs : List Char} (noOpen : '\x7b' ∉ cs) : fillFrom params render none cs = cs := by
  simpa [fillFrom] using fillFrom_literal noOpen []

theorem fillFrom_pieces {ps : List Piece} (wellFormed : ∀ p ∈ ps, p.WellFormed) (bound : ∀ p ∈ ps, p.IsBound params) :
    fillFrom params (fun v => escapeRfc6901 v.toText) none (ps.flatMap Piece.text) = ps.flatMap (Piece.filled params) := by
  induction ps with
  | nil => rfl
  | cons p ps ih =>
    obtain ⟨wellFormed, rest⟩ := List.forall_mem_cons.mp wellFormed
    obtain ⟨bound, restBound⟩ := List.forall_mem_cons.mp bound
    rw [List.flatMap_cons, List.flatMap_cons, ← ih rest restBound]
    cases p with
    | literal cs => exact fillFrom_literal wellFormed.1 _
    | placeholder name =>
      obtain ⟨v, found⟩ := Option.isSome_iff_exists.mp bound
      have closed : '\x7d' ∉ name := fun mem => (wellFormed _ mem).2.2.2 rfl
      have value : Piece.filled params (.placeholder name) = rendered params (fun v => escapeRfc6901 v.toText) name := by
        rw [rendered, found, Option.map_some, Option.getD_some, toList_escapeRfc6901, Piece.filled, Piece.decoded, found]
        rfl
      rw [value, Piece.text, List.append_assoc, List.cons_append, fillFrom, if_pos rfl]
      exact fillFrom_closed [] closed _

theorem filled_segment {segment : List Piece} (inToken : ∀ p ∈ segment, p.InToken) :
    segment.flatMap (Piece.filled params) = (segment.flatMap (Piece.decoded params)).flatMap escapeChar := by
  rw [List.flatMap_assoc]
  refine List.flatMap_congr fun p mem => ?_
  cases p with
  | literal cs =>
    obtain ⟨noSlash, valid⟩ := inToken _ mem
    exact (escape_unescape valid noSlash).symm
  | placeholder name => rfl

theorem intercalate_segments (params : Params F) (ps : List Piece) :
    ['/'].intercalate ((segments ps).map (List.flatMap (Piece.filled params))) = ps.flatMap (Piece.filled params) := by
  induction ps with
  | nil => rfl
  | cons p ps ih =>
    have here : ['/'].intercalate (p.segments.map (List.flatMap (Piece.filled params))) = p.filled params := by
      cases p with
      | literal cs =>
        have parts : (Piece.literal cs).segments.map (List.flatMap (Piece.filled params)) = cs.splitOn '/' := by
          rw [Piece.segments, List.map_map]
          exact List.map_id'' (fun part => List.append_nil part) _
        rw [parts, List.intercalate_splitOn]
        rfl
      | placeholder name => simp [Piece.segments]
    rw [segments, intercalate_glue _ (pieceSegments_ne_nil p) (segments_ne_nil ps), here, ih, List.flatMap_cons]

end Fill

/-! ## The tokens of a template -/

namespace PointerTemplate
variable (t : PointerTemplate)

/-- The template as it is written. -/
def text : String := String.ofList (t.pieces.flatMap Piece.text)

/-- The slashes of the literal pieces. -/
def slashes : Nat := (t.pieces.map Piece.slashes).sum

/-- What stands behind each of these slashes. -/
def tokenSegments : List (List Piece) := (segments t.pieces).tail

/-- All its parameters have values. -/
def BoundIn (params : Params F) : Prop := ∀ p ∈ t.pieces, p.IsBound params

theorem length_tokenSegments : t.tokenSegments.length = t.slashes := by
  rw [tokenSegments, List.length_tail, length_segments]
  rfl

theorem tokenSegments_ne_nil : t.tokenSegments ≠ [] := by
  obtain ⟨first, rest, same, some, -⟩ := segments_of_starts t.starts
  rw [tokenSegments, same]
  exact some

theorem substitutePointer_text {params : Params F} (bound : t.BoundIn params) :
    substitutePointer t.text params = pointerOf (t.tokenSegments.map (tokenOf params)) := by
  obtain ⟨first, rest, same, some, empty⟩ := segments_of_starts t.starts
  have inToken := inToken_segments t.wellFormed
  have written := intercalate_segments params t.pieces
  have nothing : first.flatMap (Piece.filled params) = [] := by
    refine List.flatMap_eq_nil_iff.mpr fun p mem => ?_
    rw [empty p mem]
    rfl
  rw [same] at inToken written
  obtain ⟨next, others, rfl⟩ := List.exists_cons_of_ne_nil some
  have escaped : ((next :: others).map (tokenOf params)).map (fun token => token.toList.flatMap escapeChar) =
      (next :: others).map (List.flatMap (Piece.filled params)) := by
    rw [List.map_map]
    refine List.map_congr_left fun segment mem => ?_
    rw [filled_segment (inToken segment (List.mem_cons_of_mem first mem))]
    exact congrArg (List.flatMap escapeChar) String.toList_ofList
  apply String.toList_inj.mp
  rw [tokenSegments, same, List.tail_cons, toList_pointerOf, escaped, List.map_cons, flatMap_slash (List.cons_ne_nil _ _),
    substitutePointer, String.toList_ofList, text, String.toList_ofList, fillFrom_pieces t.wellFormed bound, ← written,
    List.map_cons, List.map_cons, List.intercalate_cons_cons, nothing]
  rfl

theorem parseRfc6901_text {params : Params F} (bound : t.BoundIn params) :
    parseRfc6901 (substitutePointer t.text params) = t.tokenSegments.map (tokenOf params) := by
  rw [t.substitutePointer_text bound]
  exact parseRfc6901_pointerOf fun none => t.tokenSegments_ne_nil (List.map_eq_nil_iff.mp none)

end PointerTemplate

theorem tokenOf_congr {params other : Params F} {segment : List Piece}
    (same : ∀ name, Piece.placeholder name ∈ segment →
      (params.find? (String.ofList name)).map TwValue.toText = (other.find? (String.ofList name)).map TwValue.toText) :
    tokenOf params segment = tokenOf other segment := by
  refine congrArg String.ofList (List.flatMap_congr fun p mem => ?_)
  cases p with
  | literal cs => rfl
  | placeholder name => rw [Piece.decoded, Piece.decoded, same name mem]

/-- There are as many tokens as slashes in the literal pieces. Each token is what is written behind its slash, with the
    texts of the values in place of their names, and depends on no other value. -/
theorem parseRfc6901_substitutePointer (t : PointerTemplate) (params : Params F) (bound : t.BoundIn params) :
    parseRfc6901 (substitutePointer t.text params) = t.tokenSegments.map (tokenOf params) ∧
      (parseRfc6901 (substitutePointer t.text params)).length = t.slashes ∧
      ∀ other : Params F, t.BoundIn other → ∀ (i : Nat) (segment : List Piece),
        t.tokenSegments[i]? = some segment → (∀ name, Piece.placeholder name ∈ segment →
          (params.find? (String.ofList name)).map TwValue.toText = (other.find? (String.ofList name)).map TwValue.toText) →
        (parseRfc6901 (substitutePointer t.text other))[i]? = (parseRfc6901 (substitutePointer t.text params))[i]? := by
  have tokens := t.parseRfc6901_text bound
  refine ⟨tokens, ?_, fun other otherBound i segment here same => ?_⟩
  · rw [tokens, List.length_map, t.length_tokenSegments]
  · rw [tokens, t.parseRfc6901_text otherBound, List.getElem?_map, List.getElem?_map, here, Option.map_some,
      Option.map_some, tokenOf_congr same]

/-- `/pos/to~1\x7bx\x7d` -/
def positionTemplate : PointerTemplate where
  pieces := [.literal ['/', 'p', 'o', 's', '/', 't', 'o', '~', '1'], .placeholder ['x']]
  starts := rfl
  wellFormed := by
    refine List.forall_mem_cons.mpr ⟨⟨by decide, by decide⟩, List.forall_mem_singleton.mpr fun c mem => ?_⟩
    obtain rfl := List.mem_singleton.mp mem
    decide

/-- A value that reads like more of the pointer is one part of one token. -/
theorem parseRfc6901_positionTemplate :
    parseRfc6901 (substitutePointer positionTemplate.text
        (OrderedMap.empty.set "x" (.string "a/~1\x7bx\x7d") : Params Int)) =
      ["pos", "to/a/~1\x7bx\x7d"] := by
  have bound : positionTemplate.BoundIn (OrderedMap.empty.set "x" (.string "a/~1\x7bx\x7d") : Params Int) :=
    List.forall_mem_cons.mpr ⟨trivial,
      List.forall_mem_singleton.mpr (congrArg Option.isSome (OrderedMap.find?_set_self _ _ _))⟩
  exact (parseRfc6901_substitutePointer positionTemplate _ bound).1.trans (by decide)

end TwLoader
end WeftWarp
