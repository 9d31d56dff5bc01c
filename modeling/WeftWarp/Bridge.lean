import WeftWarp.Lib.EcmaRegex
import WeftWarp.ReBAC

/-! # Relation sentences

`parse_relation_edges` of `tw_bridge.hpp`: the sentences in the facts of a memory become the edges of a graph. The
pattern is matched as `std::regex` does by default, with `\s` and `\w` as in the "C" locale. -/

namespace WeftWarp
namespace TwBridge

open EcmaRegex (Regex State)
open TwJson (isSpace)
open TwReBAC

/-! ### The pattern -/

/-- `\w` -/
def isWord (c : Char) : Bool := c.isAlphanum || c = '_'

/-- The first word of a verb phrase and the relation it names. -/
def relationKeywords : List (String × String) :=
  [("owns", "OWNS"),
   ("controls", "CONTROLS"),
   ("delegated", "DELEGATED_TO"),
   ("delegates", "DELEGATED_TO"),
   ("capable", "HAS_CAPABILITY"),
   ("capability", "HAS_CAPABILITY"),
   ("member", "IS_MEMBER_OF"),
   ("belongs", "IS_MEMBER_OF"),
   ("supervises", "SUPERVISOR_OF"),
   ("supervisor", "SUPERVISOR_OF"),
   ("partner", "PARTNER_OF")]

/-- The verb phrases of the pattern. -/
def verbPhrases : List String :=
  ["owns", "controls", "delegated to", "delegates to", "has capability", "is member of", "belongs to", "supervises",
   "partner of"]

/-- `\w[\w\s]*?` -/
def reName : Regex Char := .seq (.one isWord) (.star false (.one fun c => isWord c || isSpace c))

/-- `\s+` -/
def reSpaces : Regex Char := .seq (.one isSpace) (.star true (.one isSpace))

/-- The verb phrases under `icase`. -/
def reVerb : Regex Char := .alternatives (verbPhrases.map fun verb => .literal Char.toLower verb.toList)

/-- `RE_REL` -/
def reRel : Regex Char :=
  .seq (.group 1 reName) (.seq reSpaces (.seq (.group 2 reVerb) (.seq reSpaces (.seq (.group 3 reName)
    (.alt (.one (· == '.')) .atEnd)))))

/-- The matches that the `sregex_iterator` visits. -/
def relationMatches (content : String) : List (State Char) := reRel.findAll content.length content.toList

/-- `m[n].str()` -/
def submatch (m : State Char) (n : Nat) : List Char := (m.captures n).getD []

/-! ### Edges -/

/-- The loop that pops white space from the back. -/
def trimBack (cs : List Char) : List Char := (cs.reverse.dropWhile isSpace).reverse

/-- The relation for a verb, if the table has its first word. -/
def verbRelation (verb : List Char) : Option RelationType :=
  let firstWord := (verb.map Char.toLower).takeWhile (· != ' ')
  (relationKeywords.lookup (String.ofList firstWord)).map parseRel

section Facts
variable {F : Type} [Cxx F]

def addMatch (g : TwReBACGraph F) (m : State Char) : TwReBACGraph F :=
  match verbRelation (submatch m 2) with
  | none => g
  | some rel =>
    g.addEdgeRel (String.ofList (trimBack (submatch m 1))) (String.ofList (trimBack (submatch m 3))) rel

/-- The content of a fact that is read: an object with a text, and with no number below the threshold for its trust. -/
def factContent (trustThreshold : F) : TwValue F → Option String
  | .dict d =>
    let trusted := match d.lookup "trust_score" with
      | some t => !(t.isNumber && Cxx.lt t.asNumber trustThreshold)
      | none => true
    if trusted then
      match d.lookup "content" with
      | some (.string content) => some content
      | _ => none
    else none
  | _ => none

def addFact (trustThreshold : F) (g : TwReBACGraph F) (item : TwValue F) : TwReBACGraph F :=
  match factContent trustThreshold item with
  | none => g
  | some content => (relationMatches content).foldl addMatch g

/-- The graph of `parse_relation_edges`. -/
def relationGraph (trustThreshold : F) : TwValue F → TwReBACGraph F
  | .array items => items.foldl (addFact trustThreshold) .empty
  | _ => .empty

def parseRelationEdges (order : HashOrder (TwValue F)) (factsJson : String) (trustThreshold : F) :
    Except TwJson.Thrown String :=
  (TwJson.parseJsonStr factsJson).map fun root => graphToJson order (relationGraph trustThreshold root)

end Facts

end TwBridge
end WeftWarp
