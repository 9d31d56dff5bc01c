import Mathlib.Data.Finset.Dedup
import Mathlib.Data.Finset.Union
import WeftWarp.Lib.Within
import WeftWarp.ReBAC

/-! # What a relation expression means

The evaluator spends fuel on every operator and on every hop along `IS_MEMBER_OF`; the meaning of an expression needs
none. On a graph with `k` entities fuel `depth + k` decides every expression. -/

namespace WeftWarp.TwReBAC

variable {F : Type} {g : TwReBACGraph F}

/-! ### Edges behind the indices -/

theorem edges_at (p : TwEdge → Bool) (edges : List TwEdge) :
    (edges.findIdxs p).filterMap (edges[·]?) = edges.filter p := by
  induction edges using List.reverseRecOn with
  | nil => rfl
  | append_singleton edges e ih =>
    have older : (edges.findIdxs p).filterMap ((edges ++ [e])[·]?) = (edges.findIdxs p).filterMap (edges[·]?) := by
      refine List.filterMap_congr fun i hi => ?_
      obtain ⟨hlt, -⟩ := List.mem_findIdxs_iff_exists_getElem_pos.mp hi
      exact List.getElem?_append_left hlt
    rw [List.findIdxs_append, List.filterMap_append, List.filter_append, older, ih]
    cases h : p e <;> simp [h]

variable {e : TwEdge} {s o rel : String} {n : Nat}

theorem mem_edges_at {edges : List TwEdge} {p : TwEdge → Bool} :
    e ∈ (edges.findIdxs p).filterMap (edges[·]?) ↔ e ∈ edges ∧ p e = true := by
  rw [edges_at, List.mem_filter]

theorem mem_outEdges : e ∈ g.outEdges s ↔ e ∈ g.edges ∧ e.subject = s := by
  rw [TwReBACGraph.outEdges, g.subjIdx_eq, mem_edges_at, beq_iff_eq]

theorem mem_inEdges : e ∈ g.inEdges o ↔ e ∈ g.edges ∧ e.object = o := by
  rw [TwReBACGraph.inEdges, g.objIdx_eq, mem_edges_at, beq_iff_eq]

theorem relMatch_parseRel {relName : String} :
    relMatch (parseRel relName) relName e = true ↔ e.relName = relName := by
  by_cases h : parseRel relName = .unknown
  · simp [relMatch, h]
  · have hname := (parseRel_eq_iff h relName).mp rfl
    simp only [relMatch, ne_eq, h, not_false_eq_true, if_true, beq_iff_eq, e.rel_eq]
    rw [parseRel_eq_iff h]
    exact ⟨fun he => he.trans hname.symm, fun he => he.trans hname⟩

/-! ### Meaning -/

/-- There is an edge with this relation. -/
def Related (g : TwReBACGraph F) (s rel o : String) : Prop :=
  ∃ e ∈ g.edges, e.subject = s ∧ e.relName = rel ∧ e.object = o

/-- The subject is a member of the group. -/
def MemberOf (g : TwReBACGraph F) (s grp : String) : Prop := Related g s "IS_MEMBER_OF" grp

/-- The subject itself has the relation to the object: by an edge, or for `CONTROLS` by a delegation from the
    object. -/
def Grants (g : TwReBACGraph F) (rel o s : String) : Prop :=
  Related g s rel o ∨ (rel = "CONTROLS" ∧ Related g o "DELEGATED_TO" s)

/-- The relation expressions of the wire format. -/
inductive RelExpr where
  | base (rel : String)
  | union (a b : RelExpr)
  | intersection (a b : RelExpr)
  | difference (a b : RelExpr)
  | tupleToUserset (pivot : String) (inner : RelExpr)

namespace RelExpr

/-- Whether a subject satisfies an expression towards an object. -/
def Holds (g : TwReBACGraph F) (o : String) : RelExpr → String → Prop
  | .base rel, s => Reaches (MemberOf g) (Grants g rel o) s
  | .union a b, s => Holds g o a s ∨ Holds g o b s
  | .intersection a b, s => Holds g o a s ∧ Holds g o b s
  | .difference a b, s => Holds g o a s ∧ ¬Holds g o b s
  | .tupleToUserset pivot inner, s => ∃ x, Related g s pivot x ∧ Holds g o inner x

/-- How deep operators are nested above the base relations. -/
def depth : RelExpr → Nat
  | .base _ => 0
  | .union a b | .intersection a b | .difference a b => max a.depth b.depth + 1
  | .tupleToUserset _ inner => inner.depth + 1

/-- Built from base relations, unions, intersections and hops along built-in relations. -/
def Positive : RelExpr → Prop
  | .base _ => True
  | .union a b | .intersection a b => a.Positive ∧ b.Positive
  | .difference _ _ => False
  | .tupleToUserset pivot inner => parseRel pivot ≠ .unknown ∧ inner.Positive

end RelExpr

/-- The value is a well-formed text of the expression; further keys do not matter. -/
inductive Denotes : TwValue F → RelExpr → Prop where
  | base {m : Dict F} {rel : String} (type : m.lookup "type" = some (.string "base"))
      (hrel : m.lookup "rel" = some (.string rel)) : Denotes (.dict m) (.base rel)
  | union {m : Dict F} {va vb : TwValue F} {a b : RelExpr}
      (type : m.lookup "type" = some (.string "union")) (ha : m.lookup "a" = some va)
      (hb : m.lookup "b" = some vb) : Denotes va a → Denotes vb b → Denotes (.dict m) (.union a b)
  | intersection {m : Dict F} {va vb : TwValue F} {a b : RelExpr}
      (type : m.lookup "type" = some (.string "intersection")) (ha : m.lookup "a" = some va)
      (hb : m.lookup "b" = some vb) : Denotes va a → Denotes vb b → Denotes (.dict m) (.intersection a b)
  | difference {m : Dict F} {va vb : TwValue F} {a b : RelExpr}
      (type : m.lookup "type" = some (.string "difference")) (ha : m.lookup "a" = some va)
      (hb : m.lookup "b" = some vb) : Denotes va a → Denotes vb b → Denotes (.dict m) (.difference a b)
  | tupleToUserset {m : Dict F} {pivot : String} {v : TwValue F} {inner : RelExpr}
      (type : m.lookup "type" = some (.string "tuple_to_userset"))
      (hp : m.lookup "pivot_rel" = some (.string pivot)) (hi : m.lookup "inner" = some v) :
      Denotes v inner → Denotes (.dict m) (.tupleToUserset pivot inner)

/-- The entities of a graph: every subject and every object. -/
def entities (g : TwReBACGraph F) : Finset String :=
  (g.edges.flatMap fun e => [e.subject, e.object]).toFinset

theorem subject_mem_entities (h : e ∈ g.edges) : e.subject ∈ entities g :=
  List.mem_toFinset.mpr (List.mem_flatMap.mpr ⟨e, h, by simp⟩)

theorem object_mem_entities (h : e ∈ g.edges) : e.object ∈ entities g :=
  List.mem_toFinset.mpr (List.mem_flatMap.mpr ⟨e, h, by simp⟩)

/-! ### One step of the evaluator -/

section Steps
variable {m : Dict F} {s o : String} (n : Nat)

theorem checkExpr_base {rel : String} (type : m.lookup "type" = some (.string "base"))
    (hrel : m.lookup "rel" = some (.string rel)) :
    checkExpr g (n + 1) s (.dict m) o =
      baseStep g (fun grp => checkExpr g n grp (baseExpr rel) o) s (parseRel rel) rel o := by
  simp [checkExpr, type, hrel, TwValue.asString]

variable {va vb : TwValue F}

theorem checkExpr_union (type : m.lookup "type" = some (.string "union")) (ha : m.lookup "a" = some va)
    (hb : m.lookup "b" = some vb) :
    checkExpr g (n + 1) s (.dict m) o = (checkExpr g n s va o || checkExpr g n s vb o) := by
  simp [checkExpr, type, ha, hb, TwValue.asString]

theorem checkExpr_intersection (type : m.lookup "type" = some (.string "intersection")) (ha : m.lookup "a" = some va)
    (hb : m.lookup "b" = some vb) :
    checkExpr g (n + 1) s (.dict m) o = (checkExpr g n s va o && checkExpr g n s vb o) := by
  simp [checkExpr, type, ha, hb, TwValue.asString]

theorem checkExpr_difference (type : m.lookup "type" = some (.string "difference")) (ha : m.lookup "a" = some va)
    (hb : m.lookup "b" = some vb) :
    checkExpr g (n + 1) s (.dict m) o = (checkExpr g n s va o && !checkExpr g n s vb o) := by
  simp [checkExpr, type, ha, hb, TwValue.asString]

theorem checkExpr_tupleToUserset {pivot : String} {v : TwValue F}
    (type : m.lookup "type" = some (.string "tuple_to_userset"))
    (hp : m.lookup "pivot_rel" = some (.string pivot)) (hi : m.lookup "inner" = some v) :
    checkExpr g (n + 1) s (.dict m) o =
      (g.outEdges s).any fun e => e.rel == parseRel pivot && checkExpr g n e.object v o := by
  simp [checkExpr, type, hp, hi, TwValue.asString]

end Steps

theorem baseStep_iff {inherit : String → Bool} :
    baseStep g inherit s (parseRel rel) rel o = true ↔
      Grants g rel o s ∨ ∃ grp, MemberOf g s grp ∧ inherit grp = true := by
  have hmember : ∀ e : TwEdge, e.rel = .isMemberOf ↔ e.relName = "IS_MEMBER_OF" := fun e => by
    rw [e.rel_eq]
    exact parseRel_eq_iff (by decide) e.relName
  have hdelegated : ∀ e : TwEdge, e.rel = .delegatedTo ↔ e.relName = "DELEGATED_TO" := fun e => by
    rw [e.rel_eq]
    exact parseRel_eq_iff (by decide) e.relName
  have hcontrols : parseRel rel = .controls ↔ rel = "CONTROLS" := parseRel_eq_iff (by decide) rel
  simp only [baseStep, Bool.or_eq_true, List.any_eq_true, Bool.and_eq_true, beq_iff_eq, mem_outEdges, mem_inEdges,
    relMatch_parseRel, hmember, hdelegated, hcontrols]
  constructor
  · rintro ((⟨e, ⟨he, hs⟩, hr, ho⟩ | ⟨e, ⟨he, hs⟩, hr, hi⟩) | ⟨hc, e, ⟨he, ho⟩, hr, hs⟩)
    · exact Or.inl (Or.inl ⟨e, he, hs, hr, ho⟩)
    · exact Or.inr ⟨e.object, ⟨e, he, hs, hr, rfl⟩, hi⟩
    · exact Or.inl (Or.inr ⟨hc, e, he, hs, hr, ho⟩)
  · rintro ((⟨e, he, hs, hr, ho⟩ | ⟨hc, e, he, hs, hr, ho⟩) | ⟨grp, ⟨e, he, hs, hr, rfl⟩, hi⟩)
    · exact Or.inl (Or.inl ⟨e, ⟨he, hs⟩, hr, ho⟩)
    · exact Or.inr ⟨hc, e, ⟨he, ho⟩, hr, hs⟩
    · exact Or.inl (Or.inr ⟨e, ⟨he, hs⟩, hr, hi⟩)

/-- A base relation at fuel `n` follows membership chains of fewer than `n` hops. -/
theorem checkExpr_base_iff {m : Dict F} (type : m.lookup "type" = some (.string "base"))
    (hrel : m.lookup "rel" = some (.string rel)) (n : Nat) (s : String) :
    checkExpr g n s (.dict m) o = true ↔ Within (MemberOf g) (Grants g rel o) n s := by
  induction n generalizing s m with
  | zero => simp [checkExpr, Within]
  | succ n ih =>
    rw [checkExpr_base n type hrel, baseStep_iff]
    simp only [Within]
    -- The evaluator hands the relation to the group as a fresh base expression.
    have step : ∀ grp, checkExpr g n grp (baseExpr rel) o = true ↔ Within (MemberOf g) (Grants g rel o) n grp :=
      fun grp => ih (m := [("type", .string "base"), ("rel", .string rel)]) rfl rfl grp
    simp only [step]

/-! ### More fuel -/

/-- A difference occurs among the operands that the evaluator reads. -/
inductive HasDifference : TwValue F → Prop where
  | here {m : Dict F} {t : TwValue F} :
      m.lookup "type" = some t → t.asString = "difference" → HasDifference (.dict m)
  | operand {m : Dict F} {t : TwValue F} {k : String} {v : TwValue F} :
      m.lookup "type" = some t → t.asString = "union" ∨ t.asString = "intersection" → k = "a" ∨ k = "b" →
      m.lookup k = some v → HasDifference v → HasDifference (.dict m)
  | inner {m : Dict F} {t v : TwValue F} :
      m.lookup "type" = some t → t.asString = "tuple_to_userset" → m.lookup "inner" = some v →
      HasDifference v → HasDifference (.dict m)

theorem not_hasDifference_baseExpr (rel : String) : ¬HasDifference (baseExpr rel : TwValue F) := by
  rintro (⟨ht, h⟩ | ⟨ht, h, -, -, -⟩ | ⟨ht, h, -, -⟩) <;> cases ht <;> simp [TwValue.asString] at h

theorem baseStep_mono {i j : String → Bool} (hij : ∀ grp, i grp = true → j grp = true) {rel : RelationType}
    {relName : String} (h : baseStep g i s rel relName o = true) : baseStep g j s rel relName o = true := by
  simp only [baseStep, Bool.or_eq_true, List.any_eq_true, Bool.and_eq_true] at h ⊢
  rcases h with (h | ⟨e, he, hr, hi⟩) | h
  · exact Or.inl (Or.inl h)
  · exact Or.inl (Or.inr ⟨e, he, hr, hij _ hi⟩)
  · exact Or.inr h

variable {v : TwValue F}

/-- Without differences one more unit of fuel keeps every positive answer. -/
theorem checkExpr_succ (hv : ¬HasDifference v) (h : checkExpr g n s v o = true) : checkExpr g (n + 1) s v o = true := by
  induction n generalizing s v with
  | zero => simp [checkExpr] at h
  | succ n ih =>
    cases v with
    | dict m =>
      rw [checkExpr] at h ⊢
      cases ht : m.lookup "type" with
      | none => simp [ht] at h
      | some t =>
        simp only [ht] at h ⊢
        have hd : t.asString ≠ "difference" := fun hd => hv (.here ht hd)
        by_cases h₁ : t.asString = "base"
        · simp only [h₁, if_true] at h ⊢
          cases hr : m.lookup "rel" with
          | none => simp [hr] at h
          | some r =>
            simp only [hr] at h ⊢
            exact baseStep_mono (fun grp => ih (not_hasDifference_baseExpr _)) h
        by_cases h₂ : t.asString = "union"
        · cases ha : m.lookup "a" <;> cases hb : m.lookup "b" <;> simp [h₂, ha, hb] at h ⊢
          exact h.imp (ih fun hd => hv (.operand ht (.inl h₂) (.inl rfl) ha hd))
            (ih fun hd => hv (.operand ht (.inl h₂) (.inr rfl) hb hd))
        by_cases h₃ : t.asString = "intersection"
        · cases ha : m.lookup "a" <;> cases hb : m.lookup "b" <;> simp [h₃, ha, hb] at h ⊢
          exact ⟨ih (fun hd => hv (.operand ht (.inr h₃) (.inl rfl) ha hd)) h.1,
            ih (fun hd => hv (.operand ht (.inr h₃) (.inr rfl) hb hd)) h.2⟩
        by_cases h₄ : t.asString = "tuple_to_userset"
        · cases hp : m.lookup "pivot_rel" <;> cases hi : m.lookup "inner" <;> simp [h₄, hp, hi] at h ⊢
          obtain ⟨e, he, hr, hc⟩ := h
          exact ⟨e, he, hr, ih (fun hd => hv (.inner ht h₄ hi hd)) hc⟩
        · simp [h₁, h₂, h₃, h₄, hd] at h
    | _ => simp [checkExpr] at h

theorem checkExpr_mono {m : Nat} (hmn : m ≤ n) (hv : ¬HasDifference v) (h : checkExpr g m s v o = true) :
    checkExpr g n s v o = true := by
  induction hmn with
  | refl => exact h
  | step _ ih => exact checkExpr_succ hv ih

theorem Denotes.not_hasDifference {e : RelExpr} (hv : Denotes v e) (he : e.Positive) : ¬HasDifference v := by
  induction hv with
  | base type hrel =>
    rintro (⟨ht, h⟩ | ⟨ht, h, -, -, -⟩ | ⟨ht, h, -, -⟩) <;> cases type.symm.trans ht <;>
      simp [TwValue.asString] at h
  | union type ha hb _ _ iha ihb | intersection type ha hb _ _ iha ihb =>
    rintro (⟨ht, h⟩ | ⟨ht, -, hk, hw, hd⟩ | ⟨ht, h, -, -⟩)
    · cases type.symm.trans ht
      simp [TwValue.asString] at h
    · rcases hk with rfl | rfl
      · cases ha.symm.trans hw
        exact iha he.1 hd
      · cases hb.symm.trans hw
        exact ihb he.2 hd
    · cases type.symm.trans ht
      simp [TwValue.asString] at h
  | difference => exact he.elim
  | tupleToUserset type hp hi _ ih =>
    rintro (⟨ht, h⟩ | ⟨ht, h, -, -, -⟩ | ⟨ht, -, hw, hd⟩)
    · cases type.symm.trans ht
      simp [TwValue.asString] at h
    · cases type.symm.trans ht
      simp [TwValue.asString] at h
    · cases hi.symm.trans hw
      exact ih he.2 hd

/-! ### Enough fuel -/

theorem grants_mem_entities (h : Grants g rel o s) : s ∈ entities g := by
  rcases h with ⟨e, he, rfl, -, -⟩ | ⟨-, e, he, -, -, rfl⟩
  · exact subject_mem_entities he
  · exact object_mem_entities he

theorem memberOf_mem_entities {grp : String} (h : MemberOf g s grp) : s ∈ entities g := by
  obtain ⟨e, he, rfl, -, -⟩ := h
  exact subject_mem_entities he

/-- From fuel `depth + entities` on, the answer to a well-formed expression no longer changes. -/
theorem checkExpr_stable {e : RelExpr} (hv : Denotes v e) (hn : e.depth + (entities g).card ≤ n) :
    checkExpr g n s v o = checkExpr g (e.depth + (entities g).card) s v o := by
  induction hv generalizing s n with
  | @base m rel type hrel =>
    rw [Bool.eq_iff_iff, checkExpr_base_iff type hrel, checkExpr_base_iff type hrel]
    constructor
    · intro h
      simp only [RelExpr.depth, Nat.zero_add]
      exact h.reaches.within_card (fun _ => grants_mem_entities) fun _ _ => memberOf_mem_entities
    · exact fun h => h.mono hn
  | @union m va vb a b type ha hb _ _ iha ihb =>
    obtain ⟨n, rfl⟩ : ∃ k, n = k + 1 := ⟨n - 1, by simp only [RelExpr.depth] at hn; omega⟩
    simp only [RelExpr.depth] at hn ⊢
    rw [Nat.add_right_comm, checkExpr_union n type ha hb, checkExpr_union _ type ha hb,
      (iha (by omega)).trans (iha (n := max a.depth b.depth + (entities g).card) (by omega)).symm,
      (ihb (by omega)).trans (ihb (n := max a.depth b.depth + (entities g).card) (by omega)).symm]
  | @intersection m va vb a b type ha hb _ _ iha ihb =>
    obtain ⟨n, rfl⟩ : ∃ k, n = k + 1 := ⟨n - 1, by simp only [RelExpr.depth] at hn; omega⟩
    simp only [RelExpr.depth] at hn ⊢
    rw [Nat.add_right_comm, checkExpr_intersection n type ha hb, checkExpr_intersection _ type ha hb,
      (iha (by omega)).trans (iha (n := max a.depth b.depth + (entities g).card) (by omega)).symm,
      (ihb (by omega)).trans (ihb (n := max a.depth b.depth + (entities g).card) (by omega)).symm]
  | @difference m va vb a b type ha hb _ _ iha ihb =>
    obtain ⟨n, rfl⟩ : ∃ k, n = k + 1 := ⟨n - 1, by simp only [RelExpr.depth] at hn; omega⟩
    simp only [RelExpr.depth] at hn ⊢
    rw [Nat.add_right_comm, checkExpr_difference n type ha hb, checkExpr_difference _ type ha hb,
      (iha (by omega)).trans (iha (n := max a.depth b.depth + (entities g).card) (by omega)).symm,
      (ihb (by omega)).trans (ihb (n := max a.depth b.depth + (entities g).card) (by omega)).symm]
  | @tupleToUserset m pivot v inner type hp hi _ ih =>
    obtain ⟨n, rfl⟩ : ∃ k, n = k + 1 := ⟨n - 1, by simp only [RelExpr.depth] at hn; omega⟩
    simp only [RelExpr.depth] at hn ⊢
    rw [Nat.add_right_comm, checkExpr_tupleToUserset n type hp hi, checkExpr_tupleToUserset _ type hp hi]
    have same : ∀ x, checkExpr g n x v o = checkExpr g (inner.depth + (entities g).card) x v o :=
      fun x => ih (by omega)
    simp only [same]

theorem exists_checkExpr_iff {e : RelExpr} (hv : Denotes v e) (he : e.Positive) :
    (∃ n, checkExpr g n s v o = true) ↔ e.Holds g o s := by
  induction hv generalizing s with
  | base type hrel =>
    simp only [checkExpr_base_iff type hrel, RelExpr.Holds]
    exact ⟨fun ⟨_, h⟩ => h.reaches, Reaches.within⟩
  | union type ha hb _ _ iha ihb =>
    rw [RelExpr.Holds, ← iha he.1, ← ihb he.2]
    constructor
    · rintro ⟨_ | n, h⟩
      · simp [checkExpr] at h
      · rw [checkExpr_union n type ha hb, Bool.or_eq_true] at h
        exact h.imp (fun h => ⟨n, h⟩) fun h => ⟨n, h⟩
    · rintro (⟨n, h⟩ | ⟨n, h⟩) <;> exact ⟨n + 1, by simp [checkExpr_union n type ha hb, h]⟩
  | intersection type ha hb hva hvb iha ihb =>
    rw [RelExpr.Holds, ← iha he.1, ← ihb he.2]
    constructor
    · rintro ⟨_ | n, h⟩
      · simp [checkExpr] at h
      · rw [checkExpr_intersection n type ha hb, Bool.and_eq_true] at h
        exact ⟨⟨n, h.1⟩, ⟨n, h.2⟩⟩
    · rintro ⟨⟨m, hm⟩, ⟨n, hn⟩⟩
      -- Both operands accept at the larger of their fuels.
      have hm' := checkExpr_mono (le_max_left m n) (hva.not_hasDifference he.1) hm
      have hn' := checkExpr_mono (le_max_right m n) (hvb.not_hasDifference he.2) hn
      exact ⟨max m n + 1, by rw [checkExpr_intersection _ type ha hb, hm', hn']; rfl⟩
  | difference => exact he.elim
  | @tupleToUserset m pivot v inner type hp hi _ ih =>
    have hpivot : ∀ e : TwEdge, e.rel = parseRel pivot ↔ e.relName = pivot := fun e => by
      rw [← relMatch_parseRel]
      simp [relMatch, he.1]
    simp only [RelExpr.Holds, ← ih he.2]
    constructor
    · rintro ⟨_ | n, h⟩
      · simp [checkExpr] at h
      · rw [checkExpr_tupleToUserset n type hp hi, List.any_eq_true] at h
        obtain ⟨e, hout, h⟩ := h
        rw [Bool.and_eq_true, beq_iff_eq, hpivot] at h
        obtain ⟨hmem, hs⟩ := mem_outEdges.mp hout
        exact ⟨e.object, ⟨e, hmem, hs, h.1, rfl⟩, n, h.2⟩
    · rintro ⟨x, ⟨e, hmem, hs, hr, rfl⟩, n, h⟩
      refine ⟨n + 1, ?_⟩
      rw [checkExpr_tupleToUserset n type hp hi, List.any_eq_true]
      refine ⟨e, mem_outEdges.mpr ⟨hmem, hs⟩, ?_⟩
      rw [Bool.and_eq_true, beq_iff_eq, hpivot]
      exact ⟨hr, h⟩

/-- The evaluator computes the meaning of a positive expression: its answer grows with the fuel, some fuel
    accepts exactly what holds, and fuel `depth + entities` already does. -/
theorem checkExpr_semantics (g : TwReBACGraph F) {v : TwValue F} {e : RelExpr} (hv : Denotes v e)
    (he : e.Positive) (s o : String) :
    (∀ m n, m ≤ n → checkExpr g m s v o = true → checkExpr g n s v o = true) ∧
    ((∃ n, checkExpr g n s v o = true) ↔ e.Holds g o s) ∧
    (checkExpr g (e.depth + (entities g).card) s v o = true ↔ e.Holds g o s) := by
  refine ⟨fun m n hmn => checkExpr_mono hmn (hv.not_hasDifference he), exists_checkExpr_iff hv he, ?_⟩
  rw [← exists_checkExpr_iff hv he]
  refine ⟨fun h => ⟨_, h⟩, fun ⟨n, h⟩ => ?_⟩
  rw [← checkExpr_stable hv (le_max_right n _)]
  exact checkExpr_mono (le_max_left _ _) (hv.not_hasDifference he) h

/-- `alice` is a member of `team`, which owns `doc`; `alice` controls it. -/
def teamGraph : TwReBACGraph Unit :=
  ((TwReBACGraph.empty.addEdge "alice" "team" "IS_MEMBER_OF").addEdge "team" "doc" "OWNS").addEdge
    "alice" "doc" "CONTROLS"

/-- A team of the subject owns the object, and the subject controls it or owns it too. -/
def teamOwns : TwValue Unit :=
  .dict [("type", .string "intersection"),
    ("a", .dict [("type", .string "tuple_to_userset"), ("pivot_rel", .string "IS_MEMBER_OF"), ("inner", baseExpr "OWNS")]),
    ("b", .dict [("type", .string "union"), ("a", baseExpr "CONTROLS"), ("b", baseExpr "OWNS")])]

/-- Members of an owner, who control it or own it. -/
def teamOwnsExpr : RelExpr :=
  .intersection (.tupleToUserset "IS_MEMBER_OF" (.base "OWNS")) (.union (.base "CONTROLS") (.base "OWNS"))

theorem denotes_teamOwns : Denotes teamOwns teamOwnsExpr :=
  .intersection rfl rfl rfl (.tupleToUserset rfl rfl rfl (.base rfl rfl))
    (.union rfl rfl rfl (.base rfl rfl) (.base rfl rfl))

theorem positive_teamOwnsExpr : teamOwnsExpr.Positive := ⟨⟨by decide, trivial⟩, trivial, trivial⟩

theorem checkExpr_semantics_team : teamOwnsExpr.Holds teamGraph "doc" "alice" ∧ ¬teamOwnsExpr.Holds teamGraph "doc" "team" := by
  have exact := checkExpr_semantics teamGraph denotes_teamOwns positive_teamOwnsExpr
  exact ⟨(exact "alice" "doc").2.2.mp (by decide), (exact "team" "doc").2.2.not.mp (by decide)⟩

/-! ### Access that more fuel takes back -/

/-- A positive answer survives more fuel when the expression has no difference, and in any well-formed
    expression once the fuel covers its depth and the entities. -/
theorem checkExpr_persists (g : TwReBACGraph F) (v : TwValue F) (s o : String) {m n : Nat} (hmn : m ≤ n)
    (hm : ¬HasDifference v ∨ ∃ e, Denotes v e ∧ e.depth + (entities g).card ≤ m)
    (h : checkExpr g m s v o = true) : checkExpr g n s v o = true := by
  rcases hm with hv | ⟨e, hv, hm⟩
  · exact checkExpr_mono hmn hv h
  · rw [checkExpr_stable hv (hm.trans hmn), ← checkExpr_stable hv hm]
    exact h

/-- Control without ownership. -/
def controlsNotOwns : TwValue Unit :=
  .dict [("type", .string "difference"), ("a", baseExpr "CONTROLS"), ("b", baseExpr "OWNS")]

/-- Ownership without control. -/
def ownsNotControls : TwValue Unit :=
  .dict [("type", .string "difference"), ("a", baseExpr "OWNS"), ("b", baseExpr "CONTROLS")]

/-- A nested expression, and a difference with fuel for its depth and the entities. -/
theorem checkExpr_persists_team :
    checkExpr teamGraph 9 "alice" teamOwns "doc" = true ∧ checkExpr teamGraph 9 "team" ownsNotControls "doc" = true := by
  have denotes : Denotes ownsNotControls (.difference (.base "OWNS") (.base "CONTROLS")) :=
    .difference rfl rfl rfl (.base rfl rfl) (.base rfl rfl)
  exact ⟨checkExpr_persists teamGraph _ "alice" "doc" (m := 3) (by decide)
      (.inl (denotes_teamOwns.not_hasDifference positive_teamOwnsExpr)) (by decide),
    checkExpr_persists teamGraph _ "team" "doc" (m := 5) (by decide) (.inr ⟨_, denotes, by decide⟩) (by decide)⟩

/-- With fuel 2 the membership of `alice` is not yet seen, so the subtracted relation does not hold and access is
    granted; with fuel 3 it is denied. -/
theorem checkExpr_difference_retracts :
    checkExpr teamGraph 2 "alice" controlsNotOwns "doc" = true ∧
      checkExpr teamGraph 3 "alice" controlsNotOwns "doc" = false := by decide


/-! ### Hops along a named relation -/

/-- An edge of a relation whose name passes `follows` leads from `s` to an entity that satisfies the expression. -/
def HopsTo (g : TwReBACGraph F) (n : Nat) (v : TwValue F) (o s : String) (follows : String → Prop) : Prop :=
  ∃ e ∈ g.edges, e.subject = s ∧ follows e.relName ∧ checkExpr g n e.object v o = true

/-- The evaluator compares the types of relations, and all names that are not built in have the same type. -/
theorem checkExpr_tupleToUserset_iff {m : Dict F} {pivot : String}
    (type : m.lookup "type" = some (.string "tuple_to_userset")) (hp : m.lookup "pivot_rel" = some (.string pivot))
    (hi : m.lookup "inner" = some v) (n : Nat) (s o : String) :
    checkExpr g (n + 1) s (.dict m) o = true ↔ HopsTo g n v o s fun name => parseRel name = parseRel pivot := by
  rw [checkExpr_tupleToUserset n type hp hi, List.any_eq_true]
  constructor
  · rintro ⟨e, hout, h⟩
    rw [Bool.and_eq_true, beq_iff_eq, e.rel_eq] at h
    obtain ⟨hmem, hs⟩ := mem_outEdges.mp hout
    exact ⟨e, hmem, hs, h.1, h.2⟩
  · rintro ⟨e, hmem, hs, hr, h⟩
    refine ⟨e, mem_outEdges.mpr ⟨hmem, hs⟩, ?_⟩
    rw [Bool.and_eq_true, beq_iff_eq, e.rel_eq]
    exact ⟨hr, h⟩

/-- A hop follows exactly its own relation if that is built in, or if no other custom relation leads to an entity
    that satisfies the inner expression unless its own relation does so too. -/
theorem checkExpr_hop_exact_iff (g : TwReBACGraph F) {m : Dict F} {pivot : String} {v : TwValue F}
    (type : m.lookup "type" = some (.string "tuple_to_userset"))
    (hp : m.lookup "pivot_rel" = some (.string pivot)) (hi : m.lookup "inner" = some v) (n : Nat) (s o : String) :
    (checkExpr g (n + 1) s (.dict m) o = true ↔ HopsTo g n v o s fun name => name = pivot) ↔
      (parseRel pivot = .unknown → (HopsTo g n v o s fun name => parseRel name = .unknown ∧ name ≠ pivot) →
        HopsTo g n v o s fun name => name = pivot) := by
  rw [checkExpr_tupleToUserset_iff type hp hi]
  constructor
  · rintro exact custom ⟨e, hmem, hs, ⟨hr, -⟩, h⟩
    exact exact.mp ⟨e, hmem, hs, hr.trans custom.symm, h⟩
  · intro covered
    constructor
    · rintro ⟨e, hmem, hs, hr, h⟩
      by_cases custom : parseRel pivot = .unknown
      · by_cases name : e.relName = pivot
        · exact ⟨e, hmem, hs, name, h⟩
        · exact covered custom ⟨e, hmem, hs, ⟨hr.trans custom, name⟩, h⟩
      · have name := (parseRel_eq_iff custom e.relName).mp hr
        exact ⟨e, hmem, hs, name.trans ((parseRel_eq_iff custom pivot).mp rfl).symm, h⟩
    · rintro ⟨e, hmem, hs, name, h⟩
      exact ⟨e, hmem, hs, congrArg parseRel name, h⟩

/-- The place at which the subject is, as `LOC` says, owns the object. -/
def ownsThroughLoc : List (String × TwValue Unit) :=
  [("type", .string "tuple_to_userset"), ("pivot_rel", .string "LOC"), ("inner", baseExpr "OWNS")]

/-- `alice` is at `team` and rents from `shop`, and both own `doc`. -/
def placeGraph : TwReBACGraph Unit :=
  (((TwReBACGraph.empty.addEdge "alice" "team" "LOC").addEdge "team" "doc" "OWNS").addEdge
    "alice" "shop" "RENTS_FROM").addEdge "shop" "doc" "OWNS"

/-- The other custom relation leads to an owner as well, but so does the one asked for. -/
theorem checkExpr_hop_exact_place :
    checkExpr placeGraph 2 "alice" (.dict ownsThroughLoc) "doc" = true ∧
      HopsTo placeGraph 1 (baseExpr "OWNS") "doc" "alice" fun name => name = "LOC" := by
  have hops : HopsTo placeGraph 1 (baseExpr "OWNS") "doc" "alice" fun name => name = "LOC" :=
    ⟨⟨"alice", "team", parseRel "LOC", "LOC", rfl⟩, by decide, rfl, rfl, by decide⟩
  have exact := (checkExpr_hop_exact_iff placeGraph (m := ownsThroughLoc) rfl rfl rfl 1 "alice" "doc").mpr
    fun _ _ => hops
  exact ⟨exact.mpr hops, hops⟩

/-- `alice` rents from `team`, which owns `doc`. -/
def tenantGraph : TwReBACGraph Unit :=
  (TwReBACGraph.empty.addEdge "alice" "team" "RENTS_FROM").addEdge "team" "doc" "OWNS"

/-- `RENTS_FROM` is followed where `LOC` was asked for. -/
theorem checkExpr_hop_follows_other :
    checkExpr tenantGraph 2 "alice" (.dict ownsThroughLoc) "doc" = true ∧
      ¬HopsTo tenantGraph 1 (baseExpr "OWNS") "doc" "alice" fun name => name = "LOC" := by
  refine ⟨by decide, ?_⟩
  rintro ⟨e, mem, -, name, -⟩
  have others : ∀ e ∈ tenantGraph.edges, e.relName ≠ "LOC" := by decide
  exact others e mem name

end WeftWarp.TwReBAC
