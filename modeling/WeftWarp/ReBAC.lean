import WeftWarp.Json

/-! # Relationship graphs

The edge graph of `tw_rebac.hpp` with its indices, the evaluator of relation expressions and the capability
traversal. -/

namespace WeftWarp
namespace TwReBAC

/-! ### Relations -/

inductive RelationType where
  | hasCapability
  | controls
  | owns
  | isMemberOf
  | delegatedTo
  | supervisorOf
  | partnerOf
  | unknown
  deriving DecidableEq

def parseRel (s : String) : RelationType :=
  if s = "HAS_CAPABILITY" then .hasCapability
  else if s = "CONTROLS" then .controls
  else if s = "OWNS" then .owns
  else if s = "IS_MEMBER_OF" then .isMemberOf
  else if s = "DELEGATED_TO" then .delegatedTo
  else if s = "SUPERVISOR_OF" then .supervisorOf
  else if s = "PARTNER_OF" then .partnerOf
  else .unknown

def relStr : RelationType → String
  | .hasCapability => "HAS_CAPABILITY"
  | .controls => "CONTROLS"
  | .owns => "OWNS"
  | .isMemberOf => "IS_MEMBER_OF"
  | .delegatedTo => "DELEGATED_TO"
  | .supervisorOf => "SUPERVISOR_OF"
  | .partnerOf => "PARTNER_OF"
  | .unknown => "UNKNOWN"

theorem parseRel_eq_iff {r : RelationType} (h : r ≠ .unknown) (s : String) : parseRel s = r ↔ s = relStr r := by
  constructor
  · intro hs
    unfold parseRel at hs
    repeat' split at hs
    all_goals subst hs
    all_goals first | exact absurd rfl h | assumption
  · rintro rfl
    cases r <;> rfl

/-! ### Edges and graphs -/

/-- `TwEdge`. Every edge is made by `add_edge`, so its type is the one its name parses to. -/
structure TwEdge where
  subject : String
  object : String
  rel : RelationType
  relName : String
  rel_eq : rel = parseRel relName
  deriving DecidableEq

/-- `TwReBACGraph`. `add_edge` keeps each index equal to a scan of the edges. -/
structure TwReBACGraph (F : Type) where
  edges : List TwEdge
  subjIdx : OrderedMap String (List Nat)
  objIdx : OrderedMap String (List Nat)
  memberEdges : List Nat
  definitions : OrderedMap String (TwValue F)
  subjIdx_eq : ∀ s, (subjIdx.find? s).getD [] = edges.findIdxs (·.subject == s)
  objIdx_eq : ∀ o, (objIdx.find? o).getD [] = edges.findIdxs (·.object == o)
  memberEdges_eq : memberEdges = edges.findIdxs (·.rel == .isMemberOf)

/-- `idx[key].push_back(i)`. -/
def pushIdx (idx : OrderedMap String (List Nat)) (key : String) (i : Nat) : OrderedMap String (List Nat) :=
  idx.set key ((idx.find? key).getD [] ++ [i])

theorem pushIdx_eq (field : TwEdge → String) {idx : OrderedMap String (List Nat)} {edges : List TwEdge}
    (h : ∀ s, (idx.find? s).getD [] = edges.findIdxs (field · == s)) (e : TwEdge) (s : String) :
    ((pushIdx idx (field e) edges.length).find? s).getD [] = (edges ++ [e]).findIdxs (field · == s) := by
  rw [pushIdx, OrderedMap.find?_set, List.findIdxs_append]
  by_cases hs : s = field e
  · subst hs
    simp [h]
  · simp [hs, h, Ne.symm hs]

namespace TwReBACGraph
variable {F : Type}

def empty : TwReBACGraph F where
  edges := []
  subjIdx := .empty
  objIdx := .empty
  memberEdges := []
  definitions := .empty
  subjIdx_eq _ := rfl
  objIdx_eq _ := rfl
  memberEdges_eq := rfl

def addEdge (g : TwReBACGraph F) (subj obj relName : String) : TwReBACGraph F :=
  let e : TwEdge := ⟨subj, obj, parseRel relName, relName, rfl⟩
  { g with
    edges := g.edges ++ [e]
    subjIdx := pushIdx g.subjIdx e.subject g.edges.length
    objIdx := pushIdx g.objIdx e.object g.edges.length
    memberEdges := if e.rel = .isMemberOf then g.memberEdges ++ [g.edges.length] else g.memberEdges
    subjIdx_eq := pushIdx_eq TwEdge.subject g.subjIdx_eq e
    objIdx_eq := pushIdx_eq TwEdge.object g.objIdx_eq e
    memberEdges_eq := by
      rw [List.findIdxs_append, ← g.memberEdges_eq]
      by_cases h : e.rel = .isMemberOf <;> simp [h] }

/-- The edge that `add_edge` appends. -/
def newEdge (subj obj relName : String) : TwEdge := ⟨subj, obj, parseRel relName, relName, rfl⟩

/-- The overload of `add_edge` for callers that hold a `RelationType`. -/
def addEdgeRel (g : TwReBACGraph F) (subj obj : String) (rel : RelationType) : TwReBACGraph F :=
  g.addEdge subj obj (relStr rel)

def define (g : TwReBACGraph F) (name : String) (expr : TwValue F) : TwReBACGraph F :=
  { g with definitions := g.definitions.set name expr }

def outEdges (g : TwReBACGraph F) (subj : String) : List TwEdge :=
  ((g.subjIdx.find? subj).getD []).filterMap (g.edges[·]?)

def inEdges (g : TwReBACGraph F) (obj : String) : List TwEdge :=
  ((g.objIdx.find? obj).getD []).filterMap (g.edges[·]?)

def memberOfEdges (g : TwReBACGraph F) : List TwEdge := g.memberEdges.filterMap (g.edges[·]?)

end TwReBACGraph

/-! ### Relation expressions -/

section Check
variable {F : Type} (g : TwReBACGraph F)

/-- The match of an edge against a relation: by type for a built-in one, by name otherwise. -/
def relMatch (rel : RelationType) (relName : String) (e : TwEdge) : Bool :=
  if rel ≠ .unknown then e.rel == rel else e.relName == relName

/-- The body of `check_base` behind its fuel check; `inherit` is the check of a group with one unit less. -/
def baseStep (inherit : String → Bool) (subj : String) (rel : RelationType) (relName obj : String) : Bool :=
  (g.outEdges subj).any (fun e => relMatch rel relName e && e.object == obj) ||
  (g.outEdges subj).any (fun e => e.rel == .isMemberOf && inherit e.object) ||
  (rel == .controls && (g.inEdges subj).any fun e => e.rel == .delegatedTo && e.subject == obj)

/-- The expression that wraps a bare relation name. -/
def baseExpr (relName : String) : TwValue F := .dict [("type", .string "base"), ("rel", .string relName)]

def checkExpr : Nat → String → TwValue F → String → Bool
  | 0, _, _, _ => false
  | fuel + 1, subj, .dict m, obj =>
    match m.lookup "type" with
    | none => false
    | some t =>
      let type := t.asString
      if type = "base" then
        match m.lookup "rel" with
        | none => false
        | some r =>
          let relName := r.asString
          baseStep g (fun grp => checkExpr fuel grp (baseExpr relName) obj) subj (parseRel relName) relName obj
      else if type = "union" then
        match m.lookup "a", m.lookup "b" with
        | some a, some b => checkExpr fuel subj a obj || checkExpr fuel subj b obj
        | _, _ => false
      else if type = "intersection" then
        match m.lookup "a", m.lookup "b" with
        | some a, some b => checkExpr fuel subj a obj && checkExpr fuel subj b obj
        | _, _ => false
      else if type = "difference" then
        match m.lookup "a", m.lookup "b" with
        | some a, some b => checkExpr fuel subj a obj && !checkExpr fuel subj b obj
        | _, _ => false
      else if type = "tuple_to_userset" then
        match m.lookup "pivot_rel", m.lookup "inner" with
        | some p, some inner =>
          let pivot := parseRel p.asString
          (g.outEdges subj).any fun e => e.rel == pivot && checkExpr fuel e.object inner obj
        | _, _ => false
      else false
  | _ + 1, _, _, _ => false

def checkBase : Nat → String → RelationType → String → String → Bool
  | 0, _, _, _, _ => false
  | fuel + 1, subj, rel, relName, obj =>
    baseStep g (fun grp => checkExpr g fuel grp (baseExpr relName) obj) subj rel relName obj

def checkBaseStr (fuel : Nat) (subj relName obj : String) : Bool :=
  checkBase g fuel subj (parseRel relName) relName obj

/-- One loop of `tw_expand`: the subjects of the edges that pass go into the set. -/
def insertSubjects (passes : TwEdge → Bool) (result : List String) (edges : List TwEdge) : List String :=
  edges.foldl (fun result e => if passes e then result.insert e.subject else result) result

/-- `tw_expand`. The entries of its hash set stand in the order in which they were inserted. -/
def twExpand (fuel : Nat) (relName obj : String) : List String :=
  let direct := insertSubjects (relMatch (parseRel relName) relName) [] (g.inEdges obj)
  if 0 < fuel then
    insertSubjects (fun e => checkExpr g fuel e.object (baseExpr relName) obj) direct g.memberOfEdges
  else direct

end Check

/-! ### Capability traversal -/

section Can
variable {F : Type} (g : TwReBACGraph F)

def isTerminal (r : RelationType) : Bool := r == .hasCapability || r == .controls || r == .owns

/-- `"[" + e.rel_name + "]"`. -/
def relLabel (e : TwEdge) : String := "[" ++ e.relName ++ "]"

/-- `_rebac_dfs`: the path pushed on success. Each branch searches with its own copy of the visited set. -/
def rebacDfs (target : String) : Nat → List String → String → Option (List String)
  | 0, _, _ => none
  | depth + 1, visited, current =>
    if current = target then some [current]
    else if visited.contains current then none
    else
      let visited := current :: visited
      match (g.outEdges current).find? fun e => e.object == target && isTerminal e.rel with
      | some e => some [current, relLabel e, target]
      | none =>
        (g.outEdges current).findSome? fun e =>
          (rebacDfs target depth visited e.object).map fun sub => current :: relLabel e :: sub.drop 1

def rebacCanJson (subj capability : String) (maxDepth : Int) : String :=
  let found := rebacDfs g capability maxDepth.toNat [] subj
  let path := found.getD []
  "\x7b\"authorized\":" ++ (if found.isSome then "true" else "false") ++ ",\"path\":[" ++
    ",".intercalate (path.map TwJson.escapeString) ++ "]\x7d"

end Can

/-! ### Capability queries -/

section EntityCapabilities
variable {F : Type} (g : TwReBACGraph F)

def getEntityCapabilities (entity : String) : List String :=
  ((g.outEdges entity).filter (·.rel == .hasCapability)).map (·.object)

def getEntitiesWithCapability (capability : String) : List String :=
  ((g.inEdges capability).filter (·.rel == .hasCapability)).map (·.subject)

end EntityCapabilities

/-! ### Text form -/

section Text
variable {F : Type} [Cxx F]

/-- One entry of `"edges"`. An entry that is no dictionary or lacks a field is skipped. -/
def addEdgeValue (g : TwReBACGraph F) : TwValue F → TwReBACGraph F
  | .dict em =>
    match em.lookup "subject", em.lookup "object", em.lookup "rel" with
    | some s, some o, some r => g.addEdge s.asString o.asString r.asString
    | _, _, _ => g
  | _ => g

def graphFromValue : TwValue F → TwReBACGraph F
  | .dict m =>
    let g := match m.lookup "edges" with
      | some (.array evs) => evs.foldl addEdgeValue .empty
      | _ => .empty
    match m.lookup "definitions" with
    | some (.dict defs) => defs.foldl (fun g kv => g.define kv.1 kv.2) g
    | _ => g
  | _ => .empty

def graphFromJson (json : String) : Except TwJson.Thrown (TwReBACGraph F) :=
  (TwJson.parseJsonStr json).map graphFromValue

/-- How a hash map walks through its entries, given in the order of their insertion. -/
structure HashOrder (α : Type) where
  walk : List (String × α) → List (String × α)
  perm : ∀ kvs, (walk kvs).Perm kvs

def edgeToJson (e : TwEdge) : String :=
  "\x7b\"subject\":" ++ TwJson.escapeString e.subject ++ ",\"object\":" ++ TwJson.escapeString e.object ++
    ",\"rel\":" ++ TwJson.escapeString e.relName ++ "\x7d"

def graphToJson (order : HashOrder (TwValue F)) (g : TwReBACGraph F) : String :=
  "\x7b\"edges\":[" ++ ",".intercalate (g.edges.map edgeToJson) ++ "],\"definitions\":\x7b" ++
    ",".intercalate (TwJson.entryJsons (order.walk g.definitions.entries)) ++ "\x7d\x7d"

end Text

end TwReBAC
end WeftWarp
