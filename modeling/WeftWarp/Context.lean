import WeftWarp.Value

/-! # Contexts

`resolve_context` of `Taskweft.JSONLD.Loader`: the `@context` of a document, with the files it refers to, as one map. A
path stands for the directories it leads through; there are no symbolic links and no limits on its length. -/

namespace WeftWarp
namespace JsonldLoader
variable {F : Type}

/-- The local files by their paths: the document that a file holds, or why it cannot be read or decoded. -/
abbrev LocalFiles (F : Type) := OrderedMap (List String) (Except String (TwValue F))

/-- `Path.join`, as the file system follows the result. -/
def joinPath (base : List String) (ref : String) : List String :=
  (ref.toList.splitOn '/').foldl (fun dir part =>
    if part = [] ∨ part = ['.'] then dir
    else if part = ['.', '.'] then dir.dropLast
    else dir ++ [String.ofList part]) base

/-- `Context.planning_domain` -/
def planningDomain : OrderedMap String (TwValue F) :=
  (OrderedMap.empty.set "vsekai" (.string "https://v-sekai.org/")).set "domain" (.string "vsekai:planning/domain/")

/-- How a resolution ends. -/
inductive Resolution (F : Type) where
  | ok (ctx : OrderedMap String (TwValue F))
  | error (reason : String)
  | raised

/-- `Map.merge` of an imported context with the entries beside the import. -/
def Resolution.merge (ctx : Dict F) : Resolution F → Resolution F
  | ok imported => ok (.writeAll some ctx imported)
  | error reason => error reason
  | raised => raised

/-- The import that `Map.pop` takes out of a context; null counts as none. -/
def importOf (kvs : Dict F) : Option (TwValue F) :=
  (kvs.lookup "@import").bind fun
    | .nil => none
    | importRef => some importRef

/-- `file_doc["@context"]`: null where the object has no such key or the document is null. Every other document raises. -/
def contextOf : TwValue F → Option (TwValue F)
  | .dict kvs => some ((kvs.lookup "@context").getD .nil)
  | .nil => some .nil
  | _ => none

/-- The `reduce_while` over the entries of an array, which halts at an error. -/
def mergeEntries (resolve : TwValue F → Option (Resolution F)) : List (TwValue F) → OrderedMap String (TwValue F) →
    Option (Resolution F)
  | [], acc => some (.ok acc)
  | entry :: entries, acc =>
    match resolve entry with
    | some (.ok resolved) => mergeEntries resolve entries (acc.update resolved)
    | halted => halted

/-- Where a text in a context leads: to an end, or to a further context and the directory its references start from. -/
inductive Target (F : Type) where
  | ended (r : Resolution F)
  | context (ctx : TwValue F) (base : List String)

/-- The text is the path of a local file, or else the address of a remote document; `remote` is the context that the
    document loader finds there. -/
def follow (files : LocalFiles F) (remote : String → Option (TwValue F)) (ref : String) (base : List String) : Target F :=
  let path := joinPath base ref
  match files.find? path with
  | some (.error reason) => .ended (.error reason)
  | some (.ok doc) =>
    match contextOf doc with
    | none => .ended .raised
    | some ctx => .context ctx path.dropLast
  | none =>
    match remote ref with
    | some remoteCtx => .context remoteCtx base
    | none => .ended (.ok (OrderedMap.empty.set "@import" (.string ref)))

/-- `resolve_context`, none where the fuel does not last to the end. `inspect` is how a value is shown in a message. -/
def resolveContext (files : LocalFiles F) (remote : String → Option (TwValue F)) (inspect : TwValue F → String) :
    Nat → TwValue F → List String → Option (Resolution F)
  | 0, _, _ => none
  | _ + 1, .nil, _ => some (.ok planningDomain)
  | fuel + 1, .dict kvs, base =>
    let ctx := kvs.filter (·.1 != "@import")
    match importOf kvs with
    | none => some (.ok (.writeAll some ctx .empty))
    | some importRef => (resolveContext files remote inspect fuel importRef base).map (Resolution.merge ctx)
  | fuel + 1, .string ref, base =>
    match follow files remote ref base with
    | .ended r => some r
    | .context ctx base => resolveContext files remote inspect fuel ctx base
  | fuel + 1, .array entries, base =>
    mergeEntries (fun entry => resolveContext files remote inspect fuel entry base) entries .empty
  | _ + 1, other, _ => some (.error ("unsupported @context value: " ++ inspect other))

end JsonldLoader
end WeftWarp
