import WeftWarp.Theorems.JsonRoundTrip
import WeftWarp.Theorems.ReBACPaths

/-! # The path in the report of the traversal

`_rebac_dfs` joins the path behind a hop without its first entry, which is the entity that the hop leads to. So a
reported path has lost the entities in its middle. -/

namespace WeftWarp.TwReBAC

variable {F : Type} {g : TwReBACGraph F}

/-! ### The report -/

/-- The value in the text of a report. -/
def reportValue (found : Option (List String)) : TwValue F :=
  .dict [("authorized", .bool found.isSome), ("path", .array ((found.getD []).map .string))]

theorem toJsons_strings [Cxx F] : ∀ path : List String,
    TwJson.toJsons (path.map .string : List (TwValue F)) = path.map TwJson.escapeString
  | [] => rfl
  | s :: path => by rw [List.map_cons, TwJson.toJsons, TwJson.toJson, toJsons_strings path, List.map_cons]

theorem toJson_reportValue [Cxx F] (g : TwReBACGraph F) (s c : String) (d : Int) :
    TwJson.toJson (reportValue (rebacDfs g c d.toNat [] s) : TwValue F) = rebacCanJson g s c d := by
  have authorized : "\x7b\"authorized\":" = "\x7b" ++ TwJson.escapeString "authorized" ++ ":" := by decide
  have path : ",\"path\":[" = "," ++ TwJson.escapeString "path" ++ ":" ++ "[" := by decide
  have closing : "]\x7d" = "]" ++ "\x7d" := by decide
  have entries (a b : String) : ",".intercalate [a, b] = a ++ "," ++ b := rfl
  delta rebacCanJson
  rw [authorized, path, closing]
  simp only [reportValue, TwJson.toJson, TwJson.entryJsons, entries, toJsons_strings, String.append_assoc]

/-- The text is read as a report with `"authorized":true` and the path. -/
def ReportsPath (F : Type) [Cxx F] (json : String) (path : List String) : Prop :=
  TwJson.parseJsonStr json =
    .ok (.dict [("authorized", .bool true), ("path", .array (path.map .string))] : TwValue F)

variable {c s : String} {path visited : List String} {depth : Nat}

theorem reportsPath_iff [Cxx F] {d : Int} :
    ReportsPath F (rebacCanJson g s c d) path ↔ rebacDfs g c d.toNat [] s = some path := by
  have names : ["authorized", "path"].Nodup := by decide
  have strings : ∀ path : List String, UniqueKeysList (path.map .string : List (TwValue F)) ∧
      FloatFreeList (path.map .string : List (TwValue F)) := by
    intro path
    induction path with
    | nil => exact ⟨trivial, trivial⟩
    | cons s path ih => exact ⟨⟨trivial, ih.1⟩, trivial, ih.2⟩
  have parsed := parseJsonStr_written (toJson_reportValue g s c d)
    ⟨names, trivial, (strings _).1, trivial⟩ ⟨trivial, (strings _).2, trivial⟩
  rw [ReportsPath, parsed]
  cases rebacDfs g c d.toNat [] s with
  | none => simp [reportValue]
  | some found =>
    have injective : Function.Injective (.string : String → TwValue F) := fun a b same => by cases same; rfl
    simp [reportValue, injective.list_map.eq_iff]

/-! ### What the path says -/

/-- The entities and relations along a path of edges. -/
def labelled (s : String) (es : List TwEdge) : List String := s :: es.flatMap fun e => [relLabel e, e.object]

/-- The entries are the entities and relations along a path of edges from `s` to `c`. -/
def WitnessPath (g : TwReBACGraph F) (s c : String) (path : List String) : Prop :=
  ∃ es, EdgePath g s es c ∧ path = labelled s es

/-- The ways in which the search succeeds, with the path for each. -/
theorem rebacDfs_cases {target : String} (found : rebacDfs g target depth visited s = some path) :
    (s = target ∧ path = [s]) ∨
      (s ≠ target ∧ ∃ e ∈ g.outEdges s, e.object = target ∧ isTerminal e.rel = true ∧
        path = [s, relLabel e, target]) ∨
      (s ≠ target ∧ (¬∃ e ∈ g.outEdges s, e.object = target ∧ isTerminal e.rel = true) ∧
        ∃ e ∈ g.outEdges s, ∃ depth visited sub, rebacDfs g target depth visited e.object = some sub ∧
          path = s :: relLabel e :: sub.drop 1) := by
  cases depth with
  | zero => cases found
  | succ depth =>
    rw [rebacDfs] at found
    by_cases arrived : s = target
    · rw [if_pos arrived] at found
      exact .inl ⟨arrived, (Option.some.inj found).symm⟩
    rw [if_neg arrived] at found
    split at found
    · cases found
    cases terminal : (g.outEdges s).find? fun e => e.object == target && isTerminal e.rel with
    | some e =>
      have leads := List.find?_some terminal
      rw [Bool.and_eq_true, beq_iff_eq] at leads
      simp only [terminal, Option.some.injEq] at found
      exact .inr (.inl ⟨arrived, e, List.mem_of_find?_eq_some terminal, leads.1, leads.2, found.symm⟩)
    | none =>
      simp only [terminal] at found
      obtain ⟨e, mem, hop⟩ := List.exists_of_findSome?_eq_some found
      obtain ⟨sub, behind, joined⟩ := Option.map_eq_some_iff.mp hop
      refine .inr (.inr ⟨arrived, ?_, e, mem, depth, _, sub, behind, joined.symm⟩)
      rintro ⟨e, mem, leads⟩
      exact List.find?_eq_none.mp terminal e mem (by simp [leads])

theorem head_tail_rebacDfs {target : String} (found : rebacDfs g target depth visited s = some path) :
    ∀ x ∈ (path.drop 1).head?, ∃ e ∈ g.edges, x = relLabel e := by
  rcases rebacDfs_cases found with ⟨-, rfl⟩ | ⟨-, e, mem, -, -, rfl⟩ | ⟨-, -, e, mem, _, _, sub, -, rfl⟩
  · intro x head
    cases head
  · intro x head
    cases head
    exact ⟨e, (mem_outEdges.mp mem).1, rfl⟩
  · intro x head
    cases head
    exact ⟨e, (mem_outEdges.mp mem).1, rfl⟩

/-- The subject is the capability, or an edge of a terminal relation leads to it. -/
def HoldsDirectly (g : TwReBACGraph F) (s c : String) : Prop :=
  s = c ∨ ∃ e ∈ g.edges, e.subject = s ∧ e.object = c ∧ isTerminal e.rel = true

theorem witnessPath_of_holdsDirectly (found : rebacDfs g c depth visited s = some path) (direct : HoldsDirectly g s c) :
    WitnessPath g s c path := by
  rcases rebacDfs_cases found with ⟨arrived, rfl⟩ | ⟨-, e, mem, rfl, -, rfl⟩ | ⟨away, none, -⟩
  · exact ⟨[], arrived, rfl⟩
  · obtain ⟨mem, subject⟩ := mem_outEdges.mp mem
    exact ⟨[e], ⟨mem, subject, rfl⟩, rfl⟩
  · rcases direct with arrived | ⟨e, mem, subject, leads⟩
    · exact absurd arrived away
    · exact absurd ⟨e, mem_outEdges.mpr ⟨mem, subject⟩, leads⟩ none

theorem holdsDirectly_of_witnessPath (unlike : ∀ e ∈ g.edges, ∀ e' ∈ g.edges, e.object ≠ relLabel e')
    (found : rebacDfs g c depth visited s = some path) (witness : WitnessPath g s c path) : HoldsDirectly g s c := by
  rcases rebacDfs_cases found with ⟨arrived, -⟩ | ⟨-, e, mem, object, terminal, -⟩ | ⟨-, -, e, mem, _, _, sub, behind, joined⟩
  · exact .inl arrived
  · obtain ⟨mem, subject⟩ := mem_outEdges.mp mem
    exact .inr ⟨e, mem, subject, object, terminal⟩
  · -- The third entry should be an entity, but it is the relation of the second edge, or missing.
    obtain ⟨es, along, rfl⟩ := witness
    cases es with
    | nil => cases joined
    | cons first es =>
      simp only [labelled, List.flatMap_cons, List.cons_append, List.nil_append, List.cons.injEq, true_and] at joined
      have head : first.object ∈ (sub.drop 1).head? := by rw [← joined.2]; rfl
      obtain ⟨e', mem', same⟩ := head_tail_rebacDfs behind first.object head
      exact absurd same (unlike first along.1 e' mem')

/-- A reported path is one of the graph if the subject holds the capability directly; where no entity is named like a
    relation in brackets, only then. -/
theorem rebacCanJson_path_exact [Cxx F] (g : TwReBACGraph F) (s c : String) (d : Int) {path : List String}
    (reported : ReportsPath F (rebacCanJson g s c d) path) :
    (HoldsDirectly g s c → WitnessPath g s c path) ∧
      ((∀ e ∈ g.edges, ∀ e' ∈ g.edges, e.object ≠ relLabel e') → (WitnessPath g s c path ↔ HoldsDirectly g s c)) := by
  have found := reportsPath_iff.mp reported
  refine ⟨witnessPath_of_holdsDirectly found, fun unlike => ⟨?_, witnessPath_of_holdsDirectly found⟩⟩
  exact holdsDirectly_of_witnessPath unlike found

/-- `ada` belongs to `ops`, which controls `valve`. -/
def plantGraph : TwReBACGraph Int :=
  (TwReBACGraph.empty.addEdge "ada" "ops" "IS_MEMBER_OF").addEdge "ops" "valve" "CONTROLS"

theorem rebacCanJson_path_ops : WitnessPath plantGraph "ops" "valve" ["ops", "[CONTROLS]", "valve"] := by
  have found : rebacDfs plantGraph "valve" 3 [] "ops" = some ["ops", "[CONTROLS]", "valve"] := by decide
  have controls : ∃ e ∈ plantGraph.edges, e.subject = "ops" ∧ e.object = "valve" ∧ isTerminal e.rel = true := by decide
  exact (rebacCanJson_path_exact plantGraph "ops" "valve" 3 (reportsPath_iff.mpr found)).1 (.inr controls)

/-- The group by which `ada` is authorized is missing from the path. -/
theorem rebacCanJson_path_ada :
    ReportsPath Int (rebacCanJson plantGraph "ada" "valve" 3) ["ada", "[IS_MEMBER_OF]", "[CONTROLS]", "valve"] ∧
      ¬WitnessPath plantGraph "ada" "valve" ["ada", "[IS_MEMBER_OF]", "[CONTROLS]", "valve"] := by
  have found : rebacDfs plantGraph "valve" 3 [] "ada" = some ["ada", "[IS_MEMBER_OF]", "[CONTROLS]", "valve"] := by decide
  refine ⟨reportsPath_iff.mpr found, fun witness => ?_⟩
  have unlike : ∀ e ∈ plantGraph.edges, ∀ e' ∈ plantGraph.edges, e.object ≠ relLabel e' := by decide
  have direct : ¬HoldsDirectly plantGraph "ada" "valve" := by
    rintro (same | held)
    · exact absurd same (by decide)
    · revert held
      decide
  exact direct (holdsDirectly_of_witnessPath unlike found witness)

end WeftWarp.TwReBAC
