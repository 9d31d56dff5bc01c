import WeftWarp.Pointer

/-! # The coding of JSON Pointers

A token is well formed exactly if it is the escaped form of a text, and decoding gives that text back. So a list of
tokens and the pointer written for it determine each other. -/

namespace WeftWarp
namespace TwLoader

/-! ## One token -/

/-- A character of a token as it is written. -/
def escapeChar (c : Char) : List Char := if c = '~' then ['~', '0'] else if c = '/' then ['~', '1'] else [c]

theorem escapeChar_plain {c : Char} (notTilde : c ≠ '~') (notSlash : c ≠ '/') : escapeChar c = [c] := by
  rw [escapeChar, if_neg notTilde, if_neg notSlash]

theorem toList_escapeRfc6901 (s : String) : (escapeRfc6901 s).toList = s.toList.flatMap escapeChar :=
  String.toList_ofList

theorem unescapePass_plain {digit by' c : Char} (notTilde : c ≠ '~') (cs : List Char) :
    unescapePass digit by' (c :: cs) = c :: unescapePass digit by' cs := by
  rw [unescapePass]
  rintro d ds rfl
  exact absurd rfl notTilde

theorem unescapePass_tilde {digit by' c : Char} (cs : List Char) :
    unescapePass digit by' ('~' :: c :: cs) =
      if c = digit then by' :: unescapePass digit by' cs else '~' :: unescapePass digit by' (c :: cs) := by
  rw [unescapePass]

/-- What the first pass makes of an escaped character: a `~` is still escaped. -/
def escapeTilde (c : Char) : List Char := if c = '~' then ['~', '0'] else [c]

theorem firstPass_escape (cs : List Char) : unescapePass '1' '/' (cs.flatMap escapeChar) = cs.flatMap escapeTilde := by
  induction cs with
  | nil => rfl
  | cons c cs ih =>
    by_cases tilde : c = '~'
    · subst tilde
      have zero : unescapePass '1' '/' ('0' :: cs.flatMap escapeChar) = '0' :: cs.flatMap escapeTilde := by
        rw [unescapePass_plain (by decide), ih]
      simp [escapeChar, escapeTilde, unescapePass_tilde, zero]
    · by_cases slash : c = '/'
      · subst slash
        simp [escapeChar, escapeTilde, unescapePass_tilde, ih]
      · simp [escapeChar, escapeTilde, tilde, slash, unescapePass_plain tilde, ih]

theorem secondPass_tildes (cs : List Char) : unescapePass '0' '~' (cs.flatMap escapeTilde) = cs := by
  induction cs with
  | nil => rfl
  | cons c cs ih =>
    by_cases tilde : c = '~'
    · subst tilde
      simp [escapeTilde, unescapePass_tilde, ih]
    · simp [escapeTilde, tilde, unescapePass_plain tilde, ih]

theorem unescape_escape (cs : List Char) : unescapeRfc6901 (cs.flatMap escapeChar) = String.ofList cs := by
  rw [unescapeRfc6901, firstPass_escape, secondPass_tildes]

theorem isValid_plain {c : Char} (notTilde : c ≠ '~') (cs : List Char) :
    isValidRfc6901Token (c :: cs) = isValidRfc6901Token cs := by
  rw [isValidRfc6901Token]
  · rintro rfl
    exact absurd rfl notTilde
  · rintro d ds rfl
    exact absurd rfl notTilde

theorem isValid_tilde (c : Char) (cs : List Char) :
    isValidRfc6901Token ('~' :: c :: cs) = ((c == '0' || c == '1') && isValidRfc6901Token cs) := by
  rw [isValidRfc6901Token]

theorem isValid_escape (cs : List Char) : isValidRfc6901Token (cs.flatMap escapeChar) = true := by
  induction cs with
  | nil => rfl
  | cons c cs ih =>
    rw [List.flatMap_cons]
    by_cases tilde : c = '~'
    · subst tilde
      exact (isValid_tilde '0' _).trans ih
    · by_cases slash : c = '/'
      · subst slash
        exact (isValid_tilde '1' _).trans ih
      · rw [escapeChar_plain tilde slash]
        exact (isValid_plain tilde _).trans ih

theorem slash_notMem_escape (cs : List Char) : '/' ∉ cs.flatMap escapeChar := by
  intro mem
  obtain ⟨c, -, inside⟩ := List.mem_flatMap.mp mem
  unfold escapeChar at inside
  split at inside
  · simp at inside
  · split at inside
    · simp at inside
    · rename_i notSlash
      exact notSlash (List.mem_singleton.mp inside).symm

theorem exists_escape : ∀ {t : List Char}, isValidRfc6901Token t = true → '/' ∉ t →
    ∃ cs : List Char, t = cs.flatMap escapeChar := by
  intro t
  fun_induction isValidRfc6901Token t with
  | case1 => exact fun _ _ => ⟨[], rfl⟩
  | case2 => exact fun invalid => absurd invalid (by decide)
  | case3 c t ih =>
    intro valid noSlash
    obtain ⟨digit, valid⟩ := Bool.and_eq_true_iff.mp valid
    obtain ⟨cs, rfl⟩ := ih valid fun mem => noSlash (by simp [mem])
    rcases Bool.or_eq_true_iff.mp digit with zero | one
    · exact ⟨'~' :: cs, by rw [beq_iff_eq.mp zero]; rfl⟩
    · exact ⟨'/' :: cs, by rw [beq_iff_eq.mp one]; rfl⟩
  | case4 c t alone pair ih =>
    intro valid noSlash
    rw [List.mem_cons, not_or] at noSlash
    have notTilde : c ≠ '~' := by
      rintro rfl
      cases t with
      | nil => exact alone rfl rfl
      | cons d t => exact pair d t rfl rfl
    obtain ⟨cs, rfl⟩ := ih valid noSlash.2
    exact ⟨c :: cs, by rw [List.flatMap_cons, escapeChar_plain notTilde (Ne.symm noSlash.1)]; rfl⟩

/-- A well-formed token is the escaped form of what it is decoded to. -/
theorem escape_unescape {t : List Char} (valid : isValidRfc6901Token t = true) (noSlash : '/' ∉ t) :
    (unescapeRfc6901 t).toList.flatMap escapeChar = t := by
  obtain ⟨cs, rfl⟩ := exists_escape valid noSlash
  rw [unescape_escape, String.toList_ofList]

/-! ## Pointers -/

/-- The pointer of a list of tokens. -/
def pointerOf (tokens : List String) : String :=
  String.ofList (tokens.flatMap fun token => '/' :: (escapeRfc6901 token).toList)

theorem splitOn_slash (cs : List Char) : ('/' :: cs).splitOn '/' = [] :: cs.splitOn '/' := by
  simp [List.splitOn, List.splitOnP_cons_eq_if_modifyHead]

theorem splitOn_other {c : Char} (notSlash : c ≠ '/') (cs : List Char) :
    (c :: cs).splitOn '/' = (cs.splitOn '/').modifyHead (c :: ·) := by
  simp [List.splitOn, List.splitOnP_cons_eq_if_modifyHead, notSlash]

theorem slash_notMem_splitOn {t cs : List Char} (mem : t ∈ cs.splitOn '/') : '/' ∉ t := by
  induction cs generalizing t with
  | nil => simp_all
  | cons c cs ih =>
    by_cases slash : c = '/'
    · subst slash
      rw [splitOn_slash] at mem
      rcases List.mem_cons.mp mem with rfl | inRest
      · exact List.not_mem_nil
      · exact ih inRest
    · rw [splitOn_other slash] at mem
      cases split : cs.splitOn '/' with
      | nil => exact absurd split (List.splitOn_ne_nil '/' cs)
      | cons first rest =>
        rw [split] at mem ih
        rcases List.mem_cons.mp mem with rfl | inRest
        · rw [List.mem_cons, not_or]
          exact ⟨Ne.symm slash, ih List.mem_cons_self⟩
        · exact ih (List.mem_cons_of_mem first inRest)

theorem modifyHead_nil_append (pieces : List (List Char)) : pieces.modifyHead ([] ++ ·) = pieces := by
  cases pieces <;> rfl

/-- The loop reads the pieces between the slashes, the first one behind what is read already. -/
theorem parseRfc6901From_eq (tokens : List String) (cur cs : List Char) :
    parseRfc6901From tokens cur cs =
      if ((cs.splitOn '/').modifyHead (cur ++ ·)).all isValidRfc6901Token then
        tokens ++ ((cs.splitOn '/').modifyHead (cur ++ ·)).map unescapeRfc6901
      else [] := by
  induction cs generalizing tokens cur with
  | nil => simp [parseRfc6901From]
  | cons c cs ih =>
    rw [parseRfc6901From]
    by_cases slash : c = '/'
    · subst slash
      rw [if_pos rfl, splitOn_slash, ih, modifyHead_nil_append]
      cases valid : isValidRfc6901Token cur <;> simp [valid]
    · rw [if_neg slash, splitOn_other slash, ih, List.modifyHead_modifyHead]
      have same : ((cur ++ ·) ∘ (c :: ·) : List Char → List Char) = (cur ++ [c] ++ ·) := by
        funext t
        simp
      rw [same]

theorem flatMap_slash {pieces : List (List Char)} (some : pieces ≠ []) :
    pieces.flatMap ('/' :: ·) = '/' :: ['/'].intercalate pieces := by
  induction pieces with
  | nil => exact absurd rfl some
  | cons piece pieces ih =>
    cases pieces with
    | nil => simp
    | cons next pieces =>
      rw [List.flatMap_cons, ih (List.cons_ne_nil _ _), List.intercalate_cons_cons, List.append_assoc]
      rfl

theorem toList_pointerOf (tokens : List String) :
    (pointerOf tokens).toList = (tokens.map fun t => t.toList.flatMap escapeChar).flatMap ('/' :: ·) := by
  rw [pointerOf, String.toList_ofList, List.flatMap_map]
  exact List.flatMap_congr fun t _ => by rw [toList_escapeRfc6901]

theorem parseRfc6901_slash {ptr : String} {cs : List Char} (starts : ptr.toList = '/' :: cs) :
    parseRfc6901 ptr =
      if (cs.splitOn '/').all isValidRfc6901Token then (cs.splitOn '/').map unescapeRfc6901 else [] := by
  rw [parseRfc6901, starts]
  exact (parseRfc6901From_eq [] [] cs).trans (by rw [modifyHead_nil_append, List.nil_append])

theorem parseRfc6901_of_no_slash {ptr : String} (slash : ¬∃ cs, ptr.toList = '/' :: cs) : parseRfc6901 ptr = [] := by
  unfold parseRfc6901
  split
  · rename_i cs starts
    exact absurd ⟨cs, starts⟩ slash
  · rfl

theorem parseRfc6901_pointerOf {tokens : List String} (some : tokens ≠ []) : parseRfc6901 (pointerOf tokens) = tokens := by
  let pieces := tokens.map fun t => t.toList.flatMap escapeChar
  have somePiece : pieces ≠ [] := fun none => some (List.map_eq_nil_iff.mp none)
  have noSlash : ∀ piece ∈ pieces, '/' ∉ piece := List.forall_mem_map.mpr fun t _ => slash_notMem_escape t.toList
  have valid : pieces.all isValidRfc6901Token = true :=
    List.all_eq_true.mpr (List.forall_mem_map.mpr fun t _ => isValid_escape t.toList)
  rw [parseRfc6901_slash ((toList_pointerOf tokens).trans (flatMap_slash somePiece)),
    List.splitOn_intercalate '/' noSlash somePiece, if_pos valid, List.map_map]
  refine (List.map_congr_left fun t _ => ?_).trans (List.map_id _)
  rw [Function.comp_apply, unescape_escape, String.ofList_toList, id]

theorem pointerOf_parseRfc6901 {ptr : String} (some : parseRfc6901 ptr ≠ []) : pointerOf (parseRfc6901 ptr) = ptr := by
  by_cases slash : ∃ cs, ptr.toList = '/' :: cs
  · obtain ⟨cs, starts⟩ := slash
    have parsed := parseRfc6901_slash starts
    by_cases valid : (cs.splitOn '/').all isValidRfc6901Token = true
    · rw [if_pos valid] at parsed
      have escaped : ((cs.splitOn '/').map unescapeRfc6901).map (fun t => t.toList.flatMap escapeChar) =
          cs.splitOn '/' := by
        rw [List.map_map]
        refine (List.map_congr_left fun piece mem => ?_).trans (List.map_id _)
        exact escape_unescape (List.all_eq_true.mp valid piece mem) (slash_notMem_splitOn mem)
      apply String.toList_inj.mp
      rw [toList_pointerOf, parsed, escaped, flatMap_slash (List.splitOn_ne_nil '/' cs), List.intercalate_splitOn,
        starts]
    · exact absurd (parsed.trans (if_neg valid)) some
  · exact absurd (parseRfc6901_of_no_slash slash) some

/-- Writing a pointer and reading it are inverse to each other, on lists of tokens and on pointers that are read. -/
theorem parseRfc6901_exact :
    (∀ tokens : List String, tokens ≠ [] → parseRfc6901 (pointerOf tokens) = tokens) ∧
      ∀ ptr : String, parseRfc6901 ptr ≠ [] → pointerOf (parseRfc6901 ptr) = ptr :=
  ⟨fun _ => parseRfc6901_pointerOf, fun _ => pointerOf_parseRfc6901⟩

end TwLoader
end WeftWarp
