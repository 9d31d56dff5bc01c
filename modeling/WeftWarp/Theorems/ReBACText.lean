import WeftWarp.Nif
import WeftWarp.Theorems.JsonRoundTrip

/-! # Graphs and their texts

The native functions hand a graph from call to call as JSON. The text lists the edges in order and the definitions in
the order of a hash map; reading it builds the indices anew. -/

namespace WeftWarp.TwReBAC

variable {F : Type}

/-! ### Graphs that answer alike -/

/-- The same edges, the same rows in each index and the same definitions. The definitions may stand in another order. -/
structure SameGraph (g h : TwReBACGraph F) : Prop where
  edges : g.edges = h.edges
  subjIdx : ∀ s, (g.subjIdx.find? s).getD [] = (h.subjIdx.find? s).getD []
  objIdx : ∀ o, (g.objIdx.find? o).getD [] = (h.objIdx.find? o).getD []
  memberEdges : g.memberEdges = h.memberEdges
  definitions : ∀ name, g.definitions.find? name = h.definitions.find? name

section Same
variable {g h : TwReBACGraph F}

/-- The indices follow from the edges. -/
theorem sameGraph_of_edges (edges : g.edges = h.edges)
    (definitions : ∀ name, g.definitions.find? name = h.definitions.find? name) : SameGraph g h where
  edges := edges
  subjIdx s := by rw [g.subjIdx_eq, h.subjIdx_eq, edges]
  objIdx o := by rw [g.objIdx_eq, h.objIdx_eq, edges]
  memberEdges := by rw [g.memberEdges_eq, h.memberEdges_eq, edges]
  definitions := definitions

theorem SameGraph.trans {i : TwReBACGraph F} (first : SameGraph g h) (second : SameGraph h i) : SameGraph g i :=
  sameGraph_of_edges (first.edges.trans second.edges) fun name => (first.definitions name).trans (second.definitions name)

theorem SameGraph.addEdge (same : SameGraph g h) (subj obj rel : String) :
    SameGraph (g.addEdge subj obj rel) (h.addEdge subj obj rel) :=
  sameGraph_of_edges (congrArg (· ++ [_]) same.edges) same.definitions

theorem SameGraph.outEdges (same : SameGraph g h) (s : String) : g.outEdges s = h.outEdges s := by
  rw [TwReBACGraph.outEdges, TwReBACGraph.outEdges, same.subjIdx, same.edges]

theorem SameGraph.inEdges (same : SameGraph g h) (o : String) : g.inEdges o = h.inEdges o := by
  rw [TwReBACGraph.inEdges, TwReBACGraph.inEdges, same.objIdx, same.edges]

theorem SameGraph.memberOfEdges (same : SameGraph g h) : g.memberOfEdges = h.memberOfEdges := by
  rw [TwReBACGraph.memberOfEdges, TwReBACGraph.memberOfEdges, same.memberEdges, same.edges]

theorem SameGraph.baseStep (same : SameGraph g h) (inherit : String → Bool) (s : String) (rel : RelationType)
    (relName o : String) : baseStep g inherit s rel relName o = baseStep h inherit s rel relName o := by
  rw [TwReBAC.baseStep, TwReBAC.baseStep, same.outEdges, same.inEdges]

theorem SameGraph.checkExpr (same : SameGraph g h) (fuel : Nat) (s : String) (expr : TwValue F) (o : String) :
    checkExpr g fuel s expr o = checkExpr h fuel s expr o := by
  induction fuel generalizing s expr with
  | zero => rfl
  | succ fuel ih =>
    cases expr with
    | dict m => simp only [TwReBAC.checkExpr, ih, same.baseStep, same.outEdges]
    | _ => rfl

theorem SameGraph.twExpand (same : SameGraph g h) (fuel : Nat) (rel o : String) :
    twExpand g fuel rel o = twExpand h fuel rel o := by
  simp only [TwReBAC.twExpand, same.inEdges, same.memberOfEdges, same.checkExpr]

end Same

/-! ### The text of a graph -/

section Text
variable [Cxx F]

/-- The edge as it is serialised. -/
def edgeValue (e : TwEdge) : TwValue F :=
  .dict [("subject", .string e.subject), ("object", .string e.object), ("rel", .string e.relName)]

/-- The value that the text of a graph spells out. -/
def graphValue (order : HashOrder (TwValue F)) (g : TwReBACGraph F) : TwValue F :=
  .dict [("edges", .array (g.edges.map edgeValue)), ("definitions", .dict (order.walk g.definitions.entries))]

theorem toJsons_map (f : TwEdge → TwValue F) : ∀ edges : List TwEdge,
    TwJson.toJsons (edges.map f) = edges.map fun e => TwJson.toJson (f e)
  | [] => rfl
  | e :: edges => by rw [List.map_cons, TwJson.toJsons, toJsons_map f edges]; rfl

theorem toJson_edgeValue (e : TwEdge) : TwJson.toJson (edgeValue e : TwValue F) = edgeToJson e := by
  have subject : "\x7b\"subject\":" = "\x7b" ++ TwJson.escapeString "subject" ++ ":" := by decide
  have object : ",\"object\":" = "," ++ TwJson.escapeString "object" ++ ":" := by decide
  have rel : ",\"rel\":" = "," ++ TwJson.escapeString "rel" ++ ":" := by decide
  have entries (a b c : String) : ",".intercalate [a, b, c] = a ++ "," ++ b ++ "," ++ c := rfl
  -- The equation that `rw` would make of the definition is slow to prove, for its literals.
  delta edgeToJson
  rw [subject, object, rel]
  simp only [edgeValue, TwJson.toJson, TwJson.entryJsons, entries, String.append_assoc]

theorem toJson_graphValue (order : HashOrder (TwValue F)) (g : TwReBACGraph F) :
    TwJson.toJson (graphValue order g) = graphToJson order g := by
  have edges : "\x7b\"edges\":[" = "\x7b" ++ TwJson.escapeString "edges" ++ ":" ++ "[" := by decide
  have definitions : "],\"definitions\":\x7b" = "]" ++ "," ++ TwJson.escapeString "definitions" ++ ":" ++ "\x7b" := by decide
  have closing : "\x7d\x7d" = "\x7d" ++ "\x7d" := by decide
  have entries (a b : String) : ",".intercalate [a, b] = a ++ "," ++ b := rfl
  delta graphToJson
  rw [edges, definitions, closing]
  simp only [graphValue, TwJson.toJson, TwJson.entryJsons, entries, toJsons_map, toJson_edgeValue, String.append_assoc]

/-- The definitions are values that their text holds on to. -/
def Storable (g : TwReBACGraph F) : Prop := ∀ kv ∈ g.definitions.entries, UniqueKeys kv.2 ∧ FloatFree kv.2

omit [Cxx F] in
theorem Storable.same {g h : TwReBACGraph F} (storable : Storable g) (same : SameGraph h g) : Storable h := by
  intro kv mem
  have found := OrderedMap.find?_of_mem (k := kv.1) (v := kv.2) mem
  rw [same.definitions] at found
  exact storable _ (OrderedMap.mem_of_find? found)

theorem parseJsonStr_graphToJson (order : HashOrder (TwValue F)) {g : TwReBACGraph F} (storable : Storable g) :
    TwJson.parseJsonStr (graphToJson order g) = .ok (graphValue order g) := by
  have walked : ∀ kv ∈ order.walk g.definitions.entries, UniqueKeys kv.2 ∧ FloatFree kv.2 := fun kv mem =>
    storable kv ((order.perm _).mem_iff.mp mem)
  have names : ((order.walk g.definitions.entries).map Prod.fst).Nodup :=
    ((order.perm _).map Prod.fst).nodup_iff.mpr g.definitions.nodup
  have edgeNames : ["subject", "object", "rel"].Nodup := by decide
  have graphNames : ["edges", "definitions"].Nodup := by decide
  have edges : UniqueKeysList (g.edges.map edgeValue : List (TwValue F)) ∧
      FloatFreeList (g.edges.map edgeValue : List (TwValue F)) := by
    induction g.edges with
    | nil => exact ⟨trivial, trivial⟩
    | cons e edges ih =>
      exact ⟨⟨⟨edgeNames, trivial, trivial, trivial, trivial⟩, ih.1⟩, ⟨trivial, trivial, trivial, trivial⟩, ih.2⟩
  have unique : UniqueKeys (graphValue order g) :=
    ⟨graphNames, edges.1, ⟨names, uniqueKeysEntries_iff.mpr fun kv mem => (walked kv mem).1⟩, trivial⟩
  have floatFree : FloatFree (graphValue order g) :=
    ⟨edges.2, floatFreeEntries_iff.mpr fun kv mem => (walked kv mem).2, trivial⟩
  exact parseJsonStr_written (toJson_graphValue order g) unique floatFree

/-! ### Reading a graph -/

omit [Cxx F] in
theorem addEdgeValue_edgeValue (g : TwReBACGraph F) (e : TwEdge) :
    addEdgeValue g (edgeValue e) = g.addEdge e.subject e.object e.relName := rfl

omit [Cxx F] in
theorem edges_foldl_addEdgeValue (edges : List TwEdge) (g : TwReBACGraph F) :
    ((edges.map edgeValue).foldl addEdgeValue g).edges = g.edges ++ edges := by
  induction edges generalizing g with
  | nil => simp
  | cons e edges ih =>
    have added : (g.addEdge e.subject e.object e.relName).edges = g.edges ++ [e] := by
      obtain ⟨subject, object, rel, relName, rfl⟩ := e
      rfl
    rw [List.map_cons, List.foldl_cons, addEdgeValue_edgeValue, ih, added, List.append_assoc]
    rfl

omit [Cxx F] in
theorem definitions_foldl_addEdgeValue (edges : List TwEdge) (g : TwReBACGraph F) :
    ((edges.map edgeValue).foldl addEdgeValue g).definitions = g.definitions := by
  induction edges generalizing g with
  | nil => rfl
  | cons e edges ih => rw [List.map_cons, List.foldl_cons, addEdgeValue_edgeValue, ih]; rfl

omit [Cxx F] in
theorem foldl_define (defs : Dict F) (g : TwReBACGraph F) :
    (defs.foldl (fun g kv => g.define kv.1 kv.2) g).edges = g.edges ∧
      (defs.foldl (fun g kv => g.define kv.1 kv.2) g).definitions = OrderedMap.writeAll some defs g.definitions := by
  induction defs generalizing g with
  | nil => exact ⟨rfl, rfl⟩
  | cons kv defs ih => exact ih (g.define kv.1 kv.2)

omit [Cxx F] in
theorem sameGraph_graphValue (order : HashOrder (TwValue F)) (g : TwReBACGraph F) :
    SameGraph (graphFromValue (graphValue order g)) g := by
  have read : graphFromValue (graphValue order g) = (order.walk g.definitions.entries).foldl (fun g kv => g.define kv.1 kv.2)
      ((g.edges.map edgeValue).foldl addEdgeValue .empty) := rfl
  obtain ⟨edges, definitions⟩ :=
    foldl_define (order.walk g.definitions.entries) ((g.edges.map edgeValue).foldl addEdgeValue .empty)
  refine sameGraph_of_edges ?_ fun name => ?_
  · rw [read, edges, edges_foldl_addEdgeValue]
    rfl
  · have names : ((order.walk g.definitions.entries).map Prod.fst).Nodup :=
      ((order.perm _).map Prod.fst).nodup_iff.mpr g.definitions.nodup
    have walked : OrderedMap.find? ⟨order.walk g.definitions.entries, names⟩ name = g.definitions.find? name :=
      OrderedMap.find?_perm (order.perm _) name
    rw [read, definitions, definitions_foldl_addEdgeValue, OrderedMap.find?_writeAll some name _ names, ← walked]
    simp [TwReBACGraph.empty, OrderedMap.empty, OrderedMap.find?]

/-- A graph is read back from its text. -/
theorem graphFromJson_graphToJson (order : HashOrder (TwValue F)) {g : TwReBACGraph F} (storable : Storable g) :
    ∃ h, graphFromJson (graphToJson order g) = .ok h ∧ SameGraph h g := by
  refine ⟨_, ?_, sameGraph_graphValue order g⟩
  rw [graphFromJson, parseJsonStr_graphToJson order storable]
  rfl

/-! ### Edges added through texts -/

/-- Edges added to a graph in memory. -/
def addEdges (g : TwReBACGraph F) (triples : List (String × String × String)) : TwReBACGraph F :=
  triples.foldl (fun g t => g.addEdge t.1 t.2.1 t.2.2) g

/-- Edges added by calls of `rebac_add_edge`, each on the text that the one before returned. -/
def rebacAddEdges (order : HashOrder (TwValue F)) (text : String) (triples : List (String × String × String)) :
    Except TwJson.Thrown String :=
  triples.foldlM (fun text t => Nif.rebacAddEdge order text t.1 t.2.1 t.2.2) text

omit [Cxx F] in
theorem definitions_addEdges (triples : List (String × String × String)) (g : TwReBACGraph F) :
    (addEdges g triples).definitions = g.definitions := by
  induction triples generalizing g with
  | nil => rfl
  | cons t triples ih => exact ih (g.addEdge t.1 t.2.1 t.2.2)

/-- Every call returns the text of a graph that is the same as the one in memory. -/
theorem rebacAddEdges_eq (order : HashOrder (TwValue F)) (triples : List (String × String × String)) :
    ∀ {g h : TwReBACGraph F}, Storable g → SameGraph h g →
      ∃ h', rebacAddEdges order (graphToJson order h) triples = .ok (graphToJson order h') ∧
        SameGraph h' (addEdges g triples) := by
  induction triples with
  | nil => exact fun _ same => ⟨_, rfl, same⟩
  | cons t triples ih =>
    intro g h storable same
    obtain ⟨read, parsed, sameRead⟩ := graphFromJson_graphToJson order (storable.same same)
    have added : Nif.rebacAddEdge order (graphToJson order h) t.1 t.2.1 t.2.2 =
        .ok (graphToJson order (read.addEdge t.1 t.2.1 t.2.2)) := by
      rw [Nif.rebacAddEdge, parsed]
      rfl
    have storable' : Storable (g.addEdge t.1 t.2.1 t.2.2) := storable
    obtain ⟨h', texts, same'⟩ := ih storable' ((sameRead.trans same).addEdge t.1 t.2.1 t.2.2)
    refine ⟨h', ?_, same'⟩
    rw [rebacAddEdges, List.foldlM_cons, added]
    exact texts

/-- A graph whose edges were added through its text is read as the graph to which they were added in memory, and every
    query has the same answer on both. -/
theorem graphFromJson_rebacAddEdges (order : HashOrder (TwValue F)) (g : TwReBACGraph F)
    (unique : ∀ kv ∈ g.definitions.entries, UniqueKeys kv.2) (floatFree : ∀ kv ∈ g.definitions.entries, FloatFree kv.2)
    (triples : List (String × String × String)) :
    ∃ text h, rebacAddEdges order (graphToJson order g) triples = .ok text ∧ graphFromJson text = .ok h ∧
      SameGraph h (addEdges g triples) ∧
      (∀ fuel s expr o, checkExpr h fuel s expr o = checkExpr (addEdges g triples) fuel s expr o) ∧
      ∀ fuel rel o, twExpand h fuel rel o = twExpand (addEdges g triples) fuel rel o := by
  have storable : Storable g := fun kv mem => ⟨unique kv mem, floatFree kv mem⟩
  have self : SameGraph g g := sameGraph_of_edges rfl fun _ => rfl
  obtain ⟨h', texts, same'⟩ := rebacAddEdges_eq order triples storable self
  have storable' : Storable (addEdges g triples) := by
    rw [Storable, definitions_addEdges]
    exact storable
  obtain ⟨h, parsed, same⟩ := graphFromJson_graphToJson order (storable'.same same')
  have whole := same.trans same'
  exact ⟨_, h, texts, parsed, whole, whole.checkExpr, whole.twExpand⟩

end Text

/-- A hash map that walks its entries from the last to the first. -/
def backwards : HashOrder (TwValue Int) := ⟨List.reverse, List.reverse_perm⟩

/-- A graph with an edge and two definitions. -/
def clinic : TwReBACGraph Int :=
  ((TwReBACGraph.empty.addEdge "\"doc\"" "ward" "OWNS").define "editor"
    (.dict [("type", .string "base"), ("rel", .string "OWNS")])).define "limit" (.int (-3))

theorem graphFromJson_clinic :
    (∀ kv ∈ clinic.definitions.entries, UniqueKeys kv.2) ∧ (∀ kv ∈ clinic.definitions.entries, FloatFree kv.2) ∧
      ∃ text h, rebacAddEdges backwards (graphToJson backwards clinic)
          [("nurse\\", "\"doc\"", "IS_MEMBER_OF"), ("a", "b", "LOC")] = .ok text ∧
        graphFromJson text = .ok h ∧
        SameGraph h (addEdges clinic [("nurse\\", "\"doc\"", "IS_MEMBER_OF"), ("a", "b", "LOC")]) := by
  have entries : clinic.definitions.entries =
      [("editor", .dict [("type", .string "base"), ("rel", .string "OWNS")]), ("limit", .int (-3))] := rfl
  have unique : ∀ kv ∈ clinic.definitions.entries, UniqueKeys kv.2 := by simp [entries, UniqueKeys, UniqueKeysEntries]
  have floatFree : ∀ kv ∈ clinic.definitions.entries, FloatFree kv.2 := by simp [entries, FloatFree, FloatFreeEntries]
  obtain ⟨text, h, texts, parsed, same, -⟩ := graphFromJson_rebacAddEdges backwards clinic unique floatFree
    [("nurse\\", "\"doc\"", "IS_MEMBER_OF"), ("a", "b", "LOC")]
  exact ⟨unique, floatFree, text, h, texts, parsed, same⟩

end WeftWarp.TwReBAC
