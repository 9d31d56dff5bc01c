import WeftWarp.Bridge
import WeftWarp.Theorems.ReBACIndices

/-! # Sentences and edges

Each match is a subject, one of nine verb phrases and an object. The table of relations is asked for the first word of
the phrase, but it has `capability` and `member`, which are second words. -/

namespace WeftWarp.TwBridge

open EcmaRegex TwReBAC
open TwJson (isSpace)

/-! ### What the pattern takes -/

theorem isSpace_of_isWord {c : Char} (word : isWord c = true) : isSpace c = false := by
  rw [← Bool.not_eq_true]
  intro space
  simp only [isSpace, Bool.or_eq_true, decide_eq_true_eq] at space
  rcases space with ((((rfl | rfl) | rfl) | rfl) | rfl) | rfl <;> exact absurd word (by decide)

variable {x y m : State Char}

theorem takes_reName (h : Takes reName x y) : ∃ c cs, isWord c = true ∧ Read x (c :: cs) y := by
  obtain ⟨_, first, later⟩ := takes_seq h
  obtain ⟨c, word, read⟩ := takes_one first
  obtain ⟨cs, -, more⟩ := takes_star_one later
  exact ⟨c, cs, word, read.append more⟩

theorem takes_reSpaces (h : Takes reSpaces x y) : ∃ text, Read x text y := by
  obtain ⟨_, first, later⟩ := takes_seq h
  obtain ⟨c, -, read⟩ := takes_one first
  obtain ⟨cs, -, more⟩ := takes_star_one later
  exact ⟨c :: cs, read.append more⟩

theorem takes_reVerb (h : Takes reVerb x y) :
    ∃ phrase ∈ verbPhrases, ∃ verb, verb.map Char.toLower = phrase.toList ∧ Read x verb y := by
  obtain ⟨r, mem, taken⟩ := takes_alternatives h
  obtain ⟨phrase, known, rfl⟩ := List.mem_map.mp mem
  obtain ⟨verb, same, read⟩ := takes_literal taken
  exact ⟨phrase, known, verb, same, read⟩

/-- A match of the pattern in words. -/
structure Sentence (m : State Char) : Prop where
  subject : ∃ c cs, isWord c = true ∧ submatch m 1 = c :: cs
  verb : ∃ phrase ∈ verbPhrases, (submatch m 2).map Char.toLower = phrase.toList
  object : ∃ c cs, isWord c = true ∧ submatch m 3 = c :: cs

theorem takes_ending (h : Takes (.alt (.one (· == '.')) .atEnd) x y) : ∃ text, Read x text y := by
  cases h with
  | left taken =>
    obtain ⟨c, -, read⟩ := takes_one taken
    exact ⟨[c], read⟩
  | right taken =>
    cases taken with
    | atEnd => exact ⟨[], .nil _⟩

theorem takes_reRel {input : List Char} (h : Takes reRel (.start input) m) :
    Sentence m ∧ m.rest.length < input.length := by
  obtain ⟨_, group₁, h⟩ := takes_seq h
  obtain ⟨_, spaced, h⟩ := takes_seq h
  obtain ⟨_, group₂, h⟩ := takes_seq h
  obtain ⟨_, spaced', h⟩ := takes_seq h
  obtain ⟨_, group₃, ends⟩ := takes_seq h
  obtain ⟨_, named, rfl⟩ := takes_group group₁
  obtain ⟨_, called, rfl⟩ := takes_group group₂
  obtain ⟨_, named', rfl⟩ := takes_group group₃
  obtain ⟨c, cs, word, subject⟩ := takes_reName named
  obtain ⟨_, space⟩ := takes_reSpaces spaced
  obtain ⟨phrase, known, verb, same, read⟩ := takes_reVerb called
  obtain ⟨_, space'⟩ := takes_reSpaces spaced'
  obtain ⟨d, ds, word', object⟩ := takes_reName named'
  obtain ⟨_, ending⟩ := takes_ending ends
  have captures : m.captures = Function.update (Function.update (Function.update (State.start input).captures
      1 (some (c :: cs))) 2 (some verb)) 3 (some (d :: ds)) := by
    rw [ending.captures, object.capture, space'.captures, read.capture, space.captures, subject.capture]
  refine ⟨⟨⟨c, cs, word, ?_⟩, ⟨phrase, known, ?_⟩, ⟨d, ds, word', ?_⟩⟩, ?_⟩
  · rw [submatch, captures]
    rfl
  · rw [submatch, captures]
    exact same
  · rw [submatch, captures]
    rfl
  · have first := congrArg List.length subject.rest
    have second := congrArg List.length space.rest
    have third := congrArg List.length read.rest
    have fourth := congrArg List.length space'.rest
    have fifth := congrArg List.length object.rest
    have sixth := congrArg List.length ending.rest
    simp only [State.start, State.capture, List.length_append, List.length_cons] at first second third fourth fifth sixth
    omega

theorem iterates_relationMatches (content : String) : Iterates reRel content.toList (relationMatches content) :=
  iterates_findAll (fun taken => (takes_reRel taken).2) (by rw [String.length_toList])

theorem sentence_of_mem {content : String} (mem : m ∈ relationMatches content) : Sentence m := by
  obtain ⟨_, taken⟩ := (iterates_relationMatches content).exists_takes m mem
  exact (takes_reRel taken).1

/-! ### The edge of a sentence -/

/-- White space is cut off at both ends. -/
def trim (cs : List Char) : List Char := trimBack (cs.dropWhile isSpace)

theorem trim_of_isWord {c : Char} (word : isWord c = true) (cs : List Char) : trim (c :: cs) = trimBack (c :: cs) := by
  rw [trim, List.dropWhile_cons_of_neg (by simp [isSpace_of_isWord word])]

/-- The relation that a verb phrase names. -/
def phraseRelations : List (String × RelationType) :=
  [("owns", .owns), ("controls", .controls), ("delegated to", .delegatedTo), ("delegates to", .delegatedTo),
   ("has capability", .hasCapability), ("is member of", .isMemberOf), ("belongs to", .isMemberOf),
   ("supervises", .supervisorOf), ("partner of", .partnerOf)]

/-- The verb of a match in lower case. -/
def lowered (m : State Char) : String := String.ofList ((submatch m 2).map Char.toLower)

/-- The edge that a match says. -/
def sentenceEdge (m : State Char) : TwEdge :=
  (AddEdgeCall.byEnum (String.ofList (trim (submatch m 1))) (String.ofList (trim (submatch m 3)))
    ((phraseRelations.lookup (lowered m)).getD .unknown)).edge

/-- The phrases whose first word the table does not have. -/
def lostPhrases : List String := ["has capability", "is member of"]

theorem Sentence.verbRelation (h : Sentence m) : verbRelation (submatch m 2) =
    if lowered m ∈ lostPhrases then none else some ((phraseRelations.lookup (lowered m)).getD .unknown) := by
  obtain ⟨phrase, known, same⟩ := h.verb
  have verb : lowered m = phrase := by rw [lowered, same, String.ofList_toList]
  rw [TwBridge.verbRelation, verb, same]
  simp only [verbPhrases, List.mem_cons, List.not_mem_nil, or_false] at known
  rcases known with rfl | rfl | rfl | rfl | rfl | rfl | rfl | rfl | rfl <;> decide

section Facts
variable {F : Type}

theorem addMatch_edges (g : TwReBACGraph F) {m : State Char} (h : Sentence m) :
    (addMatch g m).edges = g.edges ++ if lowered m ∈ lostPhrases then [] else [sentenceEdge m] := by
  obtain ⟨c, cs, word, subject⟩ := h.subject
  obtain ⟨d, ds, word', object⟩ := h.object
  rw [addMatch, h.verbRelation]
  by_cases lost : lowered m ∈ lostPhrases
  · simp only [if_pos lost, List.append_nil]
  · simp only [if_neg lost]
    rw [sentenceEdge, subject, object, trim_of_isWord word, trim_of_isWord word']
    rfl

theorem foldl_addMatch_edges {ms : List (State Char)} (all : ∀ m ∈ ms, Sentence m) (g : TwReBACGraph F) :
    (ms.foldl addMatch g).edges = g.edges ++ (ms.filter (lowered · ∉ lostPhrases)).map sentenceEdge := by
  induction ms generalizing g with
  | nil => simp
  | cons m ms ih =>
    obtain ⟨sentence, rest⟩ := List.forall_mem_cons.mp all
    rw [List.foldl_cons, ih rest, addMatch_edges g sentence]
    by_cases lost : lowered m ∈ lostPhrases <;> simp [lost]

variable [Cxx F]

/-- The matches in the facts that are read, in order. -/
def sentences (trustThreshold : F) (items : List (TwValue F)) : List (State Char) :=
  (items.filterMap (factContent trustThreshold)).flatMap relationMatches

theorem foldl_addFact_edges (trustThreshold : F) (items : List (TwValue F)) (g : TwReBACGraph F) :
    (items.foldl (addFact trustThreshold) g).edges =
      g.edges ++ ((sentences trustThreshold items).filter (lowered · ∉ lostPhrases)).map sentenceEdge := by
  induction items generalizing g with
  | nil => simp [sentences]
  | cons item items ih =>
    rw [List.foldl_cons, ih, addFact, sentences, sentences]
    cases read : factContent trustThreshold item with
    | none => rw [List.filterMap_cons_none read]
    | some content =>
      rw [List.filterMap_cons_some read, List.flatMap_cons, List.filter_append, List.map_append, ← List.append_assoc]
      rw [foldl_addMatch_edges fun m mem => sentence_of_mem mem]

/-- The graph has one edge for each match, in order, exactly if no match has one of the two lost phrases. -/
theorem relationGraph_edges_iff (trustThreshold : F) (items : List (TwValue F)) :
    (relationGraph trustThreshold (.array items)).edges = (sentences trustThreshold items).map sentenceEdge ↔
      ∀ m ∈ sentences trustThreshold items, lowered m ∉ lostPhrases := by
  rw [relationGraph, foldl_addFact_edges, TwReBACGraph.empty, List.nil_append]
  constructor
  · intro same
    have lengths := congrArg List.length same
    rw [List.length_map, List.length_map, List.length_filter_eq_length_iff] at lengths
    exact fun m mem => of_decide_eq_true (lengths m mem)
  · intro kept
    rw [List.filter_eq_self.mpr fun m mem => decide_eq_true (kept m mem)]

/-- `parse_relation_edges` of an array of facts returns the graph with one edge for each match of the pattern in the
    facts that pass the gate exactly if no such match has the verb `has capability` or `is member of`. -/
theorem parseRelationEdges_complete_iff (order : HashOrder (TwValue F)) (factsJson : String) (trustThreshold : F)
    (items : List (TwValue F)) (parsed : TwJson.parseJsonStr factsJson = .ok (.array items)) :
    (∀ content, Iterates reRel content.toList (relationMatches content)) ∧
    parseRelationEdges order factsJson trustThreshold =
      .ok (graphToJson order (relationGraph trustThreshold (.array items))) ∧
    ((relationGraph trustThreshold (.array items)).edges = (sentences trustThreshold items).map sentenceEdge ↔
      ∀ m ∈ sentences trustThreshold items, lowered m ∉ lostPhrases) := by
  refine ⟨iterates_relationMatches, ?_, relationGraph_edges_iff trustThreshold items⟩
  rw [parseRelationEdges, parsed]
  rfl

end Facts

theorem parseRelationEdges_complete_owns :
    let order : HashOrder (TwValue Int) := ⟨id, fun _ => .refl _⟩
    let factsJson := "[\x7b\"content\":\"Alice Owns the car . bob belongs to crew\"\x7d]"
    let items : List (TwValue Int) := [.dict [("content", .string "Alice Owns the car . bob belongs to crew")]]
    TwJson.parseJsonStr factsJson = .ok (.array items) ∧ (∀ m ∈ sentences 0 items, lowered m ∉ lostPhrases) ∧
      parseRelationEdges order factsJson 0 = .ok (graphToJson order (relationGraph 0 (.array items))) ∧
      (relationGraph 0 (.array items)).edges =
        [(AddEdgeCall.byEnum "Alice" "the car" .owns).edge, (AddEdgeCall.byEnum "bob" "crew" .isMemberOf).edge] := by
  intro order factsJson items
  have parsed : TwJson.parseJsonStr factsJson = .ok (.array items) := by decide +kernel
  have kept : ∀ m ∈ sentences 0 items, lowered m ∉ lostPhrases := by
    have phrases : (sentences 0 items).map lowered = ["owns", "belongs to"] := by decide +kernel
    intro m mem
    have known : lowered m ∈ ["owns", "belongs to"] := phrases ▸ List.mem_map_of_mem mem
    simp only [List.mem_cons, List.not_mem_nil, or_false] at known
    rcases known with verb | verb <;> rw [verb] <;> decide
  have said : (sentences 0 items).map sentenceEdge =
      [(AddEdgeCall.byEnum "Alice" "the car" .owns).edge, (AddEdgeCall.byEnum "bob" "crew" .isMemberOf).edge] := by
    decide +kernel
  obtain ⟨-, returned, complete⟩ := parseRelationEdges_complete_iff order factsJson 0 items parsed
  exact ⟨parsed, kept, returned, (complete.mpr kept).trans said⟩

/-- The sentence is matched, and the graph stays empty. -/
theorem parseRelationEdges_loses_capability :
    let factsJson := "[\x7b\"content\":\"alice has capability fly.\"\x7d]"
    let items : List (TwValue Int) := [.dict [("content", .string "alice has capability fly.")]]
    TwJson.parseJsonStr factsJson = .ok (.array items) ∧
      (sentences 0 items).map sentenceEdge = [(AddEdgeCall.byEnum "alice" "fly" .hasCapability).edge] ∧
      (relationGraph 0 (.array items)).edges = [] := by
  refine ⟨?_, ?_, ?_⟩ <;> decide +kernel

end WeftWarp.TwBridge
