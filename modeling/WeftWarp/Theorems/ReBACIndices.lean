import WeftWarp.Theorems.ReBACSemantics

/-! # The indices of a graph

`add_edge` maintains three indices beside the edges. Each lists positions as a scan would find them, so the two
capability queries count the same edges. -/

namespace WeftWarp.TwReBAC

variable {F : Type}

/-! ### Sequences of calls -/

/-- A call of `add_edge`, by either overload. -/
inductive AddEdgeCall where
  | byName (subj obj relStr : String)
  | byEnum (subj obj : String) (rel : RelationType)

namespace AddEdgeCall

/-- The graph behind a call. -/
def apply (g : TwReBACGraph F) : AddEdgeCall → TwReBACGraph F
  | byName subj obj relStr => g.addEdge subj obj relStr
  | byEnum subj obj rel => g.addEdgeRel subj obj rel

/-- The edge that the call adds. -/
def edge : AddEdgeCall → TwEdge
  | byName subj obj relStr => TwReBACGraph.newEdge subj obj relStr
  | byEnum subj obj rel => TwReBACGraph.newEdge subj obj (relStr rel)

/-- The graph after the calls, in order, on a new one. -/
def graph (calls : List AddEdgeCall) : TwReBACGraph F := calls.foldl apply .empty

theorem apply_edges (g : TwReBACGraph F) (call : AddEdgeCall) : (apply g call).edges = g.edges ++ [call.edge] := by
  cases call <;> rfl

/-- The edges stand in the order of the calls. -/
theorem foldl_edges (calls : List AddEdgeCall) (g : TwReBACGraph F) :
    (calls.foldl apply g).edges = g.edges ++ calls.map edge := by
  induction calls generalizing g with
  | nil => simp
  | cons call calls ih => rw [List.foldl_cons, ih, apply_edges, List.map_cons, List.append_assoc, List.singleton_append]

end AddEdgeCall

/-! ### Exact indices -/

/-- `idx` lists the positions of the edges with `p`: all of them, nothing else, each once and in order. -/
structure Indexes (edges : List TwEdge) (p : TwEdge → Prop) (idx : List Nat) : Prop where
  increasing : idx.Pairwise (· < ·)
  mem_iff : ∀ i, i ∈ idx ↔ ∃ e, edges[i]? = some e ∧ p e

theorem Indexes.findIdxs {edges : List TwEdge} {q : TwEdge → Bool} {p : TwEdge → Prop} (h : ∀ e, q e = true ↔ p e) :
    Indexes edges p (edges.findIdxs q) where
  increasing := List.pairwise_findIdxs
  mem_iff i := by
    rw [List.mem_findIdxs_iff_exists_getElem_pos]
    constructor
    · rintro ⟨hlt, hq⟩
      exact ⟨edges[i], List.getElem?_eq_getElem hlt, (h _).mp hq⟩
    · rintro ⟨e, he, hp⟩
      obtain ⟨hlt, rfl⟩ := List.getElem?_eq_some_iff.mp he
      exact ⟨hlt, (h _).mpr hp⟩

section Queries
variable (g : TwReBACGraph F)

theorem outEdges_eq_filter (s : String) : g.outEdges s = g.edges.filter (·.subject == s) := by
  rw [TwReBACGraph.outEdges, g.subjIdx_eq, edges_at]

theorem inEdges_eq_filter (o : String) : g.inEdges o = g.edges.filter (·.object == o) := by
  rw [TwReBACGraph.inEdges, g.objIdx_eq, edges_at]

/-- How often both queries report a pair: once for each edge that grants the capability to the entity. -/
def grantCount (entity capability : String) : Nat :=
  g.edges.countP fun e => e.subject == entity && e.object == capability && e.rel == .hasCapability

theorem count_getEntityCapabilities (entity capability : String) :
    (getEntityCapabilities g entity).count capability = grantCount g entity capability := by
  rw [getEntityCapabilities, outEdges_eq_filter, List.count, List.countP_map, List.filter_filter, List.countP_filter]
  refine List.countP_congr fun e _ => ?_
  simp only [Function.comp_apply, Bool.and_eq_true]
  exact ⟨fun ⟨obj, rel, subj⟩ => ⟨⟨subj, obj⟩, rel⟩, fun ⟨⟨subj, obj⟩, rel⟩ => ⟨obj, rel, subj⟩⟩

theorem count_getEntitiesWithCapability (entity capability : String) :
    (getEntitiesWithCapability g capability).count entity = grantCount g entity capability := by
  rw [getEntitiesWithCapability, inEdges_eq_filter, List.count, List.countP_map, List.filter_filter,
    List.countP_filter]
  refine List.countP_congr fun e _ => ?_
  simp only [Function.comp_apply, Bool.and_eq_true]
  exact ⟨fun ⟨subj, rel, obj⟩ => ⟨⟨subj, obj⟩, rel⟩, fun ⟨⟨subj, obj⟩, rel⟩ => ⟨subj, rel, obj⟩⟩

end Queries

/-- After any calls of `add_edge` the three indices are exact, and the two capability queries agree on every pair. -/
theorem addEdge_indices (calls : List AddEdgeCall) :
    (AddEdgeCall.graph calls : TwReBACGraph F).edges = calls.map AddEdgeCall.edge ∧
    (∀ s, Indexes (calls.map AddEdgeCall.edge) (·.subject = s)
      (((AddEdgeCall.graph calls : TwReBACGraph F).subjIdx.find? s).getD [])) ∧
    (∀ o, Indexes (calls.map AddEdgeCall.edge) (·.object = o)
      (((AddEdgeCall.graph calls : TwReBACGraph F).objIdx.find? o).getD [])) ∧
    Indexes (calls.map AddEdgeCall.edge) (·.rel = .isMemberOf) (AddEdgeCall.graph calls : TwReBACGraph F).memberEdges ∧
    ∀ e c, (getEntityCapabilities (AddEdgeCall.graph calls : TwReBACGraph F) e).count c =
      (getEntitiesWithCapability (AddEdgeCall.graph calls : TwReBACGraph F) c).count e := by
  have edges : (AddEdgeCall.graph calls : TwReBACGraph F).edges = calls.map AddEdgeCall.edge :=
    AddEdgeCall.foldl_edges calls .empty
  refine ⟨edges, fun s => ?_, fun o => ?_, ?_, fun e c => ?_⟩
  · rw [TwReBACGraph.subjIdx_eq, edges]
    exact .findIdxs fun e => beq_iff_eq
  · rw [TwReBACGraph.objIdx_eq, edges]
    exact .findIdxs fun e => beq_iff_eq
  · rw [TwReBACGraph.memberEdges_eq, edges]
    exact .findIdxs fun e => beq_iff_eq
  · rw [count_getEntityCapabilities, count_getEntitiesWithCapability]

end WeftWarp.TwReBAC
