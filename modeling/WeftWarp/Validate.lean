import WeftWarp.Duration
import WeftWarp.Loader

/-! # Validation

`validate` of `Taskweft.JSONLD.Loader`, which a document passes before it reaches the planner: a validator of JSON schemas
with `rectgtn_domain.schema.json`, and the checks that relate one part of a document to another. The validator is a library
and a parameter here; what it accepts has the shape that the schema asks for as draft 7 reads it (so `prefixItems` is not
a keyword). Behind the schema no check raises: it reads lists where it expects lists. -/

namespace WeftWarp
namespace JsonldLoader

open TwLoader (getArr)
open TwValue (isString isDict isArray isBool isNumber)
open Iso8601Duration (ParseError)

variable {F : Type}

/-! ## The schema -/

section Schema

/-- `properties`: a key that is there has a value of the given shape. -/
def property (object : Dict F) (key : String) (shape : TwValue F → Bool) : Bool :=
  match object.lookup key with
  | none => true
  | some v => shape v

def required (object : Dict F) (key : String) : Bool := (object.lookup key).isSome

/-- An array with items of a shape. -/
def arrayOf (shape : TwValue F → Bool) : TwValue F → Bool
  | .array xs => xs.all shape
  | _ => false

/-- An object whose values have a shape. -/
def objectOf (shape : TwValue F → Bool) : TwValue F → Bool
  | .dict kvs => kvs.all fun kv => shape kv.2
  | _ => false

/-- An object that passes a test of its entries. -/
def objectWith (test : Dict F → Bool) : TwValue F → Bool
  | .dict kvs => test kvs
  | _ => false

def oneOf (shapes : List Bool) : Bool := (shapes.filter id).length = 1

def stringIn (texts : List String) : TwValue F → Bool
  | .string s => texts.contains s
  | _ => false

def bodyStep : TwValue F → Bool :=
  objectWith fun step => oneOf [required step "eval", required step "pointer/set" && required step "value"]

def action : TwValue F → Bool :=
  objectWith fun d =>
    property d "description" isString && property d "duration" isString &&
    property d "params" (arrayOf isString) && property d "bind" (arrayOf isDict) &&
    property d "body" (arrayOf bodyStep)

def alternative : TwValue F → Bool :=
  objectWith fun d =>
    required d "subtasks" && property d "name" isString &&
    property d "check" (arrayOf (objectWith (required · "eval"))) &&
    property d "subtasks" (arrayOf isArray)

def method : TwValue F → Bool :=
  objectWith fun d =>
    property d "description" isString && property d "params" (arrayOf isString) && property d "scan" isDict &&
    property d "alternatives" (arrayOf alternative)

def callTask : TwValue F → Bool
  | .array xs => !xs.isEmpty
  | _ => false

/-- An object that is not empty, with values of a shape. -/
def someObjectOf (shape : TwValue F → Bool) : TwValue F → Bool :=
  objectWith fun kvs => !kvs.isEmpty && kvs.all fun kv => shape kv.2

def multigoalTask : TwValue F → Bool :=
  objectWith fun d =>
    required d "multigoal" && property d "multigoal" (someObjectOf (someObjectOf fun _ => true))

def goalEntry : TwValue F → Bool :=
  objectWith fun d => required d "pointer" && required d "eq" && property d "pointer" isString

def goalTask : TwValue F → Bool :=
  objectWith fun d =>
    required d "goal" && property d "goal" fun g => arrayOf goalEntry g && !g.asArray.isEmpty

def task (t : TwValue F) : Bool := oneOf [callTask t, multigoalTask t, goalTask t]

def edge : TwValue F → Bool :=
  objectWith fun d =>
    required d "subject" && required d "object" && required d "rel" &&
    property d "subject" isString && property d "object" isString && property d "rel" isString

def rebacGraph : TwValue F → Bool :=
  objectWith fun d => property d "edges" (arrayOf edge) && property d "definitions" isDict

def capabilities : TwValue F → Bool :=
  objectWith fun d => property d "entities" (objectOf (arrayOf isString)) && property d "graph" rebacGraph

variable [CxxMath F]

/-- A number without a fraction is an integer, however it is written. -/
def isInteger : TwValue F → Bool
  | .int _ => true
  | .float f => Cxx.eq (CxxMath.trunc f) f
  | _ => false

/-- A value of a shape, or an object of them. -/
def initOf (shape : TwValue F → Bool) (init : TwValue F) : Bool := oneOf [shape init, objectOf shape init]

def vector (n : Nat) (v : TwValue F) : Bool := arrayOf isNumber v && v.asArray.length = n

/-- The types of variables and what a value of each is. -/
def initTypes : List (String × (TwValue F → Bool)) :=
  [("bool", isBool), ("int", isInteger), ("float", isNumber), ("float2", vector 2), ("float3", vector 3),
    ("float4", vector 4), ("float2x2", vector 4), ("float3x3", vector 9), ("float4x4", vector 16),
    ("ref", isString)]

def varDef : TwValue F → Bool :=
  objectWith fun d =>
    required d "name" && required d "type" && property d "name" isString && property d "description" isString &&
    property d "type" (stringIn (initTypes.map fun type : String × (TwValue F → Bool) => type.1)) &&
    initTypes.all fun type =>
      ((d.lookup "type").getD .nil).asString ≠ type.1 || property d "init" (initOf type.2)

/-- The shape that the schema asks of a document. -/
def ofSchema (doc : Dict F) : Bool :=
  required doc "@type" && required doc "name" &&
  doc.all (fun kv =>
    ["@context", "@type", "name", "description", "version", "source", "enums", "variables", "actions", "methods",
      "todo_list", "capabilities"].contains kv.1) &&
  property doc "@type" (stringIn ["domain:Definition", "domain:MetaDomain", "domain:Problem"]) &&
  property doc "name" isString && property doc "description" isString && property doc "version" isString &&
  property doc "source" isString && property doc "enums" (objectOf isDict) &&
  property doc "variables" (arrayOf varDef) && property doc "actions" (objectOf action) &&
  property doc "methods" (objectOf method) && property doc "todo_list" (arrayOf task) &&
  property doc "capabilities" capabilities

/-- `ExJsonSchema.Validator` with the schema, without its texts. -/
structure Validator (F : Type) [CxxMath F] where
  valid : Dict F → Bool
  shape : ∀ doc, valid doc = true → ofSchema doc = true

/-- The validator that accepts all documents of the shape. -/
def Validator.exact : Validator F := ⟨ofSchema, fun _ shape => shape⟩

end Schema

/-! ## The checks behind the schema -/

inductive LoaderError
  /-- "schema validation failed: ..." -/
  | schema
  /-- "domain:Definition documents must declare at least one action or method ..." -/
  | noActions
  /-- "#ctx: #name expects #expected arg(s), got #got" -/
  | arity (ctx name : String) (expected got : Nat)
  /-- "action #name: invalid duration #dur (#reason)" -/
  | invalidDuration (name dur : String) (reason : ParseError)
  /-- "action #name: duration must be a string, got ..." -/
  | durationNotString (name : String)
  /-- "#ctx: undeclared variable #ref" -/
  | undeclared (ctx ref : String)
  /-- "expected JSON-LD object, got ..." -/
  | notObject
  deriving DecidableEq

/-- The entries under a key of the document; `Map.get(doc, key, %{})`. -/
def members (doc : Dict F) (key : String) : Dict F :=
  ((doc.lookup key).getD .nil).asDict

def checkHasActions (doc : Dict F) : Except LoaderError Unit :=
  if ((doc.lookup "@type").getD .nil).asString = "domain:Definition" then
    if !(members doc "actions").isEmpty || !(members doc "methods").isEmpty then .ok () else .error .noActions
  else .ok ()

def checkActionDuration (name : String) (defn : TwValue F) : Except LoaderError Unit :=
  match defn.asDict.lookup "duration" with
  | none | some .nil => .ok ()
  | some (.string dur) =>
    match Iso8601Duration.parse dur with
    | .ok _ => .ok ()
    | .error reason => .error (.invalidDuration name dur reason)
  | some _ => .error (.durationNotString name)

def checkActionDurations (doc : Dict F) : Except LoaderError Unit :=
  (members doc "actions").forM fun kv => checkActionDuration kv.1 kv.2

/-! ### Arity -/

def nameArityMap (defs : Dict F) : List (String × Nat) :=
  (defs.filter fun kv => kv.2.isDict).map fun kv => (kv.1, (getArr kv.2.asDict "params").length)

/-- `arity_index`: a method of the same name hides an action. -/
def arityIndex (actions methods : Dict F) : List (String × Nat) :=
  nameArityMap methods ++ nameArityMap actions

def checkCall (index : List (String × Nat)) (ctx : String) : TwValue F → Except LoaderError Unit
  | .array (.string name :: args) =>
    match index.lookup name with
    | none => .ok ()
    | some expected => if args.length = expected then .ok () else .error (.arity ctx name expected args.length)
  | _ => .ok ()

def checkCalls (index : List (String × Nat)) (ctx : String) (calls : List (TwValue F)) : Except LoaderError Unit :=
  calls.forM (checkCall index ctx)

/-- `method_subtasks`: those of the alternatives; a scan has none here. -/
def methodSubtasks (mdef : TwValue F) : List (TwValue F) :=
  (getArr mdef.asDict "alternatives").flatMap fun alt => getArr alt.asDict "subtasks"

def checkArity (doc : Dict F) : Except LoaderError Unit := do
  let index := arityIndex (members doc "actions") (members doc "methods")
  checkCalls index "todo_list" (getArr doc "todo_list")
  (members doc "methods").forM fun kv => checkCalls index ("method " ++ kv.1) (methodSubtasks kv.2)

/-! ### References -/

/-- The matches of `@var_re`: what stands between an opening brace and the next brace, if that closes and there is
something between them. The text since the last opening brace stands in the first argument. -/
def varRefs : Option (List Char) → List Char → List String
  | _, [] => []
  | ref, c :: cs =>
    if c = '\x7b' then varRefs (some []) cs
    else if c = '\x7d' then
      match ref with
      | none | some [] => varRefs none cs
      | some name => String.ofList name :: varRefs none cs
    else varRefs (ref.map (· ++ [c])) cs

mutual

/-- The references in the texts of a value, in the order in which `scan_refs` meets them. -/
def refsOf : TwValue F → List String
  | .string s => varRefs none s.toList
  | .array xs => refsOfList xs
  | .dict kvs => refsOfEntries kvs
  | _ => []

def refsOfList : List (TwValue F) → List String
  | [] => []
  | x :: xs => refsOf x ++ refsOfList xs

def refsOfEntries : Dict F → List String
  | [] => []
  | (_, v) :: kvs => refsOf v ++ refsOfEntries kvs

end

def scanRefs (texts : List (TwValue F)) (allowed : List String) (ctx : String) : Except LoaderError Unit :=
  match (refsOfList texts).find? fun ref => !allowed.contains ref with
  | none => .ok ()
  | some ref => .error (.undeclared ctx ref)

def stringOf : TwValue F → Option String
  | .string s => some s
  | _ => none

/-- The names of the entries of a list that are strings. -/
def entryNames (entries : List (TwValue F)) : List String :=
  entries.filterMap fun entry => (entry.asDict.lookup "name").bind stringOf

def globalVarNames (doc : Dict F) : List String := entryNames (getArr doc "variables")

def bindNames (defn : TwValue F) : List String := entryNames (getArr defn.asDict "bind")

def checkMemberRefs (defs : Dict F) (globals : List String) (kind : String)
    (bodyFn : TwValue F → List (TwValue F)) (extraNamesFn : TwValue F → List String) : Except LoaderError Unit :=
  defs.forM fun kv =>
    let params := (getArr kv.2.asDict "params").filterMap stringOf
    scanRefs (bodyFn kv.2) (params ++ globals ++ extraNamesFn kv.2) (kind ++ " " ++ kv.1)

def checkVarRefs (doc : Dict F) : Except LoaderError Unit := do
  let globals := globalVarNames doc
  checkMemberRefs (members doc "actions") globals "action" (fun defn => getArr defn.asDict "body") bindNames
  checkMemberRefs (members doc "methods") globals "method" methodSubtasks fun _ => []

variable [CxxMath F]

def checkJsonSchema (validator : Validator F) (doc : Dict F) : Except LoaderError Unit :=
  if validator.valid doc then .ok () else .error .schema

def validate (validator : Validator F) : TwValue F → Except LoaderError Unit
  | .dict doc => do
    checkJsonSchema validator doc
    checkHasActions doc
    checkArity doc
    checkActionDurations doc
    checkVarRefs doc
  | _ => .error .notObject

end JsonldLoader
end WeftWarp
