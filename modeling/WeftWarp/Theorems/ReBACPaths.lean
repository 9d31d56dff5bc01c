import WeftWarp.Theorems.ReBACSemantics

/-! # Which paths the capability traversal accepts

`_rebac_dfs` succeeds in two ways: an edge of a terminal relation leads to the capability within `max_depth` edges, or
a hop of any relation has reached it with fewer. -/

namespace WeftWarp.TwReBAC

variable {F : Type} {g : TwReBACGraph F}

/-- The edges lead from `s` to `t`. -/
def EdgePath (g : TwReBACGraph F) : String → List TwEdge → String → Prop
  | s, [], t => s = t
  | s, e :: es, t => e ∈ g.edges ∧ e.subject = s ∧ EdgePath g e.object es t

variable {s target : String} {visited : List String}

theorem EdgePath.mem {t : String} {es : List TwEdge} (h : EdgePath g s es t) : ∀ e ∈ es, e ∈ g.edges := by
  induction es generalizing s with
  | nil => simp
  | cons e es ih =>
    obtain ⟨he, -, hrest⟩ := h
    simpa [he] using ih hrest

/-- The entities along edges. -/
def pathNodes (s : String) (es : List TwEdge) : List String := s :: es.map TwEdge.object

/-- The last edge is `HAS_CAPABILITY`, `CONTROLS` or `OWNS`. -/
def EndsTerminal (es : List TwEdge) : Prop := ∃ e, es.getLast? = some e ∧ isTerminal e.rel = true

/-- A path that visits no entity twice. -/
def SimplePath (g : TwReBACGraph F) (s : String) (es : List TwEdge) (t : String) : Prop :=
  EdgePath g s es t ∧ (pathNodes s es).Nodup

/-- A path that the search can take from `s` with `depth` left and `visited` behind it. -/
def Accepted (g : TwReBACGraph F) (target : String) (depth : Nat) (visited : List String) (s : String)
    (es : List TwEdge) : Prop :=
  SimplePath g s es target ∧ (∀ x ∈ pathNodes s es, x ∉ visited) ∧
    (es.length < depth ∨ (es.length ≤ depth ∧ EndsTerminal es))

/-- A path from a node other than the target is an edge and the rest of the path, which avoids the node. -/
theorem accepted_cons_iff {depth : Nat} {e : TwEdge} {es : List TwEdge} (hs : s ∉ visited) (hes : es ≠ []) :
    Accepted g target (depth + 1) visited s (e :: es) ↔
      e ∈ g.edges ∧ e.subject = s ∧ Accepted g target depth (s :: visited) e.object es := by
  have hterm : EndsTerminal (e :: es) ↔ EndsTerminal es := by
    obtain ⟨l, hl⟩ := Option.ne_none_iff_exists'.mp (mt List.getLast?_eq_none_iff.mp hes)
    simp [EndsTerminal, List.getLast?_cons, hl]
  simp only [Accepted, SimplePath, EdgePath, pathNodes, List.map_cons, List.nodup_cons, List.length_cons,
    Nat.add_lt_add_iff_right, Nat.add_le_add_iff_right, hterm, List.mem_cons, forall_eq_or_imp, not_or]
  constructor
  · rintro ⟨⟨⟨he, hsub, hp⟩, hnot, hnd⟩, ⟨-, hv, hrest⟩, hlen⟩
    exact ⟨he, hsub, ⟨hp, hnd⟩, ⟨⟨fun h => hnot.1 h.symm, hv⟩, fun x hx =>
      ⟨fun h => hnot.2 (h ▸ hx), hrest x hx⟩⟩, hlen⟩
  · rintro ⟨he, hsub, ⟨hp, hnd⟩, ⟨⟨hne, hv⟩, hrest⟩, hlen⟩
    exact ⟨⟨⟨he, hsub, hp⟩, ⟨fun h => hne h.symm, fun h => (hrest s h).1 rfl⟩, hnd⟩,
      ⟨hs, hv, fun x hx => (hrest x hx).2⟩, hlen⟩

/-- One level of the search: an accepted path is a terminal edge to the target, or an edge of any relation and an
    accepted path behind it. -/
theorem exists_accepted_succ_iff {depth : Nat} (hst : s ≠ target) (hs : s ∉ visited) (hv : target ∉ visited) :
    (∃ es, Accepted g target (depth + 1) visited s es) ↔
      (∃ e ∈ g.outEdges s, e.object = target ∧ isTerminal e.rel = true) ∨
        ∃ e ∈ g.outEdges s, ∃ es, Accepted g target depth (s :: visited) e.object es := by
  constructor
  · rintro ⟨es, hacc⟩
    match es, hacc with
    | [], hacc => exact absurd hacc.1.1 hst
    | [e], ⟨⟨⟨hmem, hsub, hobj⟩, _⟩, _, hlen⟩ =>
      have hout := mem_outEdges.mpr ⟨hmem, hsub⟩
      rcases hlen with hlen | ⟨-, l, hl, ht⟩
      · refine .inr ⟨e, hout, [], ⟨hobj, by simp [pathNodes]⟩, ?_, .inl (by simpa using hlen)⟩
        simp [pathNodes, show e.object = target from hobj, hv, hst.symm]
      · cases hl
        exact .inl ⟨e, hout, hobj, ht⟩
    | e :: e' :: es, hacc =>
      obtain ⟨hmem, hsub, hacc⟩ := (accepted_cons_iff hs (List.cons_ne_nil e' es)).mp hacc
      exact .inr ⟨e, mem_outEdges.mpr ⟨hmem, hsub⟩, e' :: es, hacc⟩
  · rintro (⟨e, hout, hobj, ht⟩ | ⟨e, hout, es, hacc⟩)
    · obtain ⟨hmem, hsub⟩ := mem_outEdges.mp hout
      refine ⟨[e], ⟨⟨hmem, hsub, hobj⟩, by simp [pathNodes, hobj, hst]⟩, ?_, .inr ⟨by simp, e, rfl, ht⟩⟩
      simp [pathNodes, hobj, hs, hv]
    · obtain ⟨hmem, hsub⟩ := mem_outEdges.mp hout
      cases es with
      | nil =>
        obtain ⟨⟨hobj, -⟩, -, hlen⟩ := hacc
        have hobj : e.object = target := hobj
        refine ⟨[e], ⟨⟨hmem, hsub, hobj⟩, by simp [pathNodes, hobj, hst]⟩, by simp [pathNodes, hobj, hs, hv], .inl ?_⟩
        rcases hlen with hlen | ⟨-, l, hl, -⟩
        · simpa using hlen
        · cases hl
      | cons e' es => exact ⟨e :: e' :: es, (accepted_cons_iff hs (List.cons_ne_nil e' es)).mpr ⟨hmem, hsub, hacc⟩⟩

theorem rebacDfs_isSome_iff (depth : Nat) (hv : target ∉ visited) (s : String) :
    (rebacDfs g target depth visited s).isSome = true ↔ ∃ es, Accepted g target depth visited s es := by
  induction depth generalizing visited s with
  | zero =>
    simp only [rebacDfs, Option.isSome_none, Bool.false_eq_true, false_iff, not_exists]
    rintro es ⟨-, -, h | ⟨h, l, hl, -⟩⟩
    · exact absurd h (Nat.not_lt_zero _)
    · rw [List.length_eq_zero_iff.mp (Nat.le_zero.mp h)] at hl
      cases hl
  | succ depth ih =>
    rw [rebacDfs]
    by_cases hst : s = target
    · subst hst
      simp only [if_true, Option.isSome_some, true_iff]
      exact ⟨[], ⟨rfl, by simp [pathNodes]⟩, by simpa [pathNodes] using hv, .inl (Nat.succ_pos _)⟩
    · simp only [hst, if_false, List.contains_eq_mem, decide_eq_true_eq]
      by_cases hs : s ∈ visited
      · simp only [hs, if_true, Option.isSome_none, Bool.false_eq_true, false_iff, not_exists]
        rintro es ⟨-, h, -⟩
        exact h s (by simp [pathNodes]) hs
      · rw [if_neg hs, exists_accepted_succ_iff hst hs hv]
        have hv' : target ∉ s :: visited := by simp [hv, Ne.symm hst]
        cases hfind : (g.outEdges s).find? fun e => e.object == target && isTerminal e.rel with
        | some e =>
          have he := List.find?_some hfind
          simp only [Bool.and_eq_true, beq_iff_eq] at he
          simp only [Option.isSome_some, true_iff]
          exact .inl ⟨e, List.mem_of_find?_eq_some hfind, he⟩
        | none =>
          -- The terminal edges were looked at first, so only the hops are left.
          rw [or_iff_right]
          · simp only [List.isSome_findSome?, List.any_eq_true, Option.isSome_map, ih hv']
          · rintro ⟨e, hout, he⟩
            exact List.find?_eq_none.mp hfind e hout (by simp [he])

/-! ### The report -/

/-- The JSON text reports `"authorized":true`. -/
def ReportsAuthorized (json : String) : Prop := "\x7b\"authorized\":true".toList <+: json.toList

-- Stated for texts in general: a rewrite under the literals of the report unfolds them.
theorem starts_append_iff (a t b c d e : String) :
    (a ++ t).toList <+: (a ++ b ++ c ++ d ++ e).toList ↔ t.toList <+: b.toList ++ (c ++ d ++ e).toList := by
  simp only [String.toList_append, List.append_assoc, List.prefix_append_right_inj]

theorem reportsAuthorized_iff {c : String} {d : Int} :
    ReportsAuthorized (rebacCanJson g s c d) ↔ (rebacDfs g c d.toNat [] s).isSome = true := by
  refine (starts_append_iff "\x7b\"authorized\":" "true" _ _ _ _).trans ?_
  cases rebacDfs g c d.toNat [] s with
  | none => exact iff_of_false (fun h => absurd (List.cons_prefix_cons.mp h).1 (by decide)) (by decide)
  | some path => exact iff_of_true (List.prefix_append _ _) rfl

/-- A path of at most `d` edges whose last edge is terminal. -/
def GrantPath (g : TwReBACGraph F) (s c : String) (d : Int) (es : List TwEdge) : Prop :=
  SimplePath g s es c ∧ (es.length : Int) ≤ d ∧ EndsTerminal es

/-- The report is right exactly when every capability that some path of fewer than `d` edges reaches is also
    reached by a path that ends in a terminal edge. -/
theorem rebacCanJson_exact_iff (g : TwReBACGraph F) (s c : String) (d : Int) :
    (ReportsAuthorized (rebacCanJson g s c d) ↔ ∃ es, GrantPath g s c d es) ↔
      ((∃ es, SimplePath g s es c ∧ (es.length : Int) < d) → ∃ es, GrantPath g s c d es) := by
  have hfound : ReportsAuthorized (rebacCanJson g s c d) ↔
      (∃ es, SimplePath g s es c ∧ (es.length : Int) < d) ∨ ∃ es, GrantPath g s c d es := by
    rw [reportsAuthorized_iff, rebacDfs_isSome_iff _ (by simp)]
    simp only [Accepted, GrantPath, List.not_mem_nil, not_false_eq_true, implies_true, true_and, and_or_left,
      exists_or]
    refine or_congr ?_ ?_
    · refine exists_congr fun es => and_congr_right fun _ => ?_
      omega
    · refine exists_congr fun es => and_congr_right fun _ => and_congr_left fun ht => ?_
      -- A terminal edge makes the path non-empty, so `d` is positive on both sides.
      have hpos : 0 < es.length := by
        obtain ⟨l, hl, -⟩ := ht
        cases es <;> simp at hl ⊢
      omega
  rw [hfound, or_iff_right_iff_imp]

/-- A partner of the capability is not granted it, and yet reported as authorized. -/
def partnerGraph : TwReBACGraph Unit := TwReBACGraph.empty.addEdge "alice" "vault" "PARTNER_OF"

theorem rebacCanJson_partner :
    ReportsAuthorized (rebacCanJson partnerGraph "alice" "vault" 2) ∧
      ¬∃ es, GrantPath partnerGraph "alice" "vault" 2 es := by
  refine ⟨reportsAuthorized_iff.mpr (by decide), ?_⟩
  rintro ⟨es, ⟨hp, -⟩, -, l, hl, ht⟩
  rw [List.mem_singleton.mp (hp.mem l (List.mem_of_getLast? hl))] at ht
  cases ht

end WeftWarp.TwReBAC
