import WeftWarp.Theorems.ReBACSemantics

/-! # Who holds a relation

`tw_expand` starts from the object, `check_base` from the subject. What the first lists the second confirms with one
unit of fuel more, but the first does not follow delegations. -/

namespace WeftWarp.TwReBAC

variable {F : Type} {g : TwReBACGraph F} {s o rel : String} {n : Nat}

theorem mem_insertSubjects {passes : TwEdge → Bool} : ∀ {edges : List TwEdge} {result : List String},
    s ∈ insertSubjects passes result edges ↔ s ∈ result ∨ ∃ e ∈ edges, passes e = true ∧ e.subject = s
  | [], result => by simp [insertSubjects]
  | e :: edges, result => by
    rw [insertSubjects, List.foldl_cons, ← insertSubjects, mem_insertSubjects]
    cases pass : passes e with
    | false => simp [pass]
    | true =>
      simp only [if_true, List.mem_insert_iff, List.mem_cons, exists_eq_or_imp, pass, true_and]
      rw [or_assoc, or_left_comm, eq_comm (a := s)]

theorem mem_memberOfEdges {e : TwEdge} : e ∈ g.memberOfEdges ↔ e ∈ g.edges ∧ e.relName = "IS_MEMBER_OF" := by
  rw [TwReBACGraph.memberOfEdges, g.memberEdges_eq, mem_edges_at, beq_iff_eq, e.rel_eq]
  exact and_congr_right fun _ => parseRel_eq_iff (by decide) e.relName

theorem mem_twExpand : s ∈ twExpand g n rel o ↔
    Related g s rel o ∨ ∃ grp, MemberOf g s grp ∧ checkExpr g n grp (baseExpr rel) o = true := by
  have direct : s ∈ insertSubjects (relMatch (parseRel rel) rel) [] (g.inEdges o) ↔ Related g s rel o := by
    rw [mem_insertSubjects]
    simp only [List.not_mem_nil, false_or, mem_inEdges, relMatch_parseRel]
    exact ⟨fun ⟨e, ⟨mem, object⟩, name, subject⟩ => ⟨e, mem, subject, name, object⟩,
      fun ⟨e, mem, subject, name, object⟩ => ⟨e, ⟨mem, object⟩, name, subject⟩⟩
  rw [twExpand]
  cases n with
  | zero =>
    rw [if_neg (Nat.lt_irrefl 0), direct]
    exact ⟨.inl, fun held => held.elim id fun ⟨_, _, check⟩ => nomatch check⟩
  | succ n =>
    rw [if_pos (Nat.succ_pos n), mem_insertSubjects, direct]
    refine or_congr_right ?_
    simp only [mem_memberOfEdges]
    exact ⟨fun ⟨e, ⟨mem, name⟩, check, subject⟩ => ⟨e.object, ⟨e, mem, subject, name, rfl⟩, check⟩,
      fun ⟨grp, ⟨e, mem, subject, name, object⟩, check⟩ => ⟨e, ⟨mem, name⟩, object ▸ check, subject⟩⟩

theorem checkBaseStr_eq (n : Nat) (s rel o : String) : checkBaseStr g n s rel o = checkExpr g n s (baseExpr rel) o := by
  cases n with
  | zero => rfl
  | succ n => exact (checkExpr_base n rfl rfl).symm

theorem checkBaseStr_succ : checkBaseStr g (n + 1) s rel o = true ↔
    Grants g rel o s ∨ ∃ grp, MemberOf g s grp ∧ checkExpr g n grp (baseExpr rel) o = true := by
  rw [checkBaseStr, checkBase]
  exact baseStep_iff

theorem checkBaseStr_of_mem_twExpand (listed : s ∈ twExpand g n rel o) : checkBaseStr g (n + 1) s rel o = true :=
  checkBaseStr_succ.mpr ((mem_twExpand.mp listed).imp_left .inl)

/-- What is held is listed, delegations apart. -/
theorem mem_twExpand_or_delegated (held : checkBaseStr g (n + 1) s rel o = true) :
    s ∈ twExpand g n rel o ∨ (rel = "CONTROLS" ∧ Related g o "DELEGATED_TO" s) := by
  rcases checkBaseStr_succ.mp held with (edge | delegated) | inherited
  · exact .inl (mem_twExpand.mpr (.inl edge))
  · exact .inr delegated
  · exact .inl (mem_twExpand.mpr (.inr inherited))

/-- The list is exact unless the relation is `CONTROLS` and the object is delegated to somebody who controls it in no
    other way. -/
theorem twExpand_exact_iff (g : TwReBACGraph F) (n : Nat) (rel o : String) :
    (∀ s, s ∈ twExpand g n rel o ↔ checkBaseStr g (n + 1) s rel o = true) ↔
      (rel = "CONTROLS" → ∀ s, Related g o "DELEGATED_TO" s →
        Related g s "CONTROLS" o ∨ ∃ grp, MemberOf g s grp ∧ checkBaseStr g n grp "CONTROLS" o = true) := by
  constructor
  · rintro exactly rfl s delegated
    have held : checkBaseStr g (n + 1) s "CONTROLS" o = true := checkBaseStr_succ.mpr (.inl (.inr ⟨rfl, delegated⟩))
    have listed := mem_twExpand.mp ((exactly s).mpr held)
    simpa only [checkBaseStr_eq] using listed
  · intro otherwise s
    refine ⟨checkBaseStr_of_mem_twExpand, fun held => ?_⟩
    rcases mem_twExpand_or_delegated held with listed | ⟨rfl, delegated⟩
    · exact listed
    · have holds := otherwise rfl s delegated
      simp only [checkBaseStr_eq] at holds
      exact mem_twExpand.mpr holds

/-- The valve is delegated to the operator, who controls it and is not listed. -/
theorem twExpand_delegated :
    let g : TwReBACGraph Int := TwReBACGraph.empty.addEdge "valve" "operator" "DELEGATED_TO"
    checkBaseStr g 4 "operator" "CONTROLS" "valve" = true ∧ twExpand g 3 "CONTROLS" "valve" = [] := by
  decide

end WeftWarp.TwReBAC
