import Mathlib.Data.List.Nodup
import Mathlib.Logic.Relation

/-! Bounded depth-first search with a cache of failures.

    A node is expanded once: it is solved, dead, or offers alternatives that are tried in order. The bound counts
    the choices on a branch. A failure is entered in the cache under the key of its node, whatever the bound was
    that led to it; `memoSearch_eq_search` says when that does no harm. -/

namespace WeftWarp

variable {ν ε ℓ κ : Type}

/-- What the expansion of a node shows: the labels up to its end or up to a choice. An alternative is a node, or
    an exception that leaves the search when its turn comes. -/
inductive Expansion (ν ε ℓ : Type) where
  | solved (labels : List ℓ)
  | dead
  | branch (labels : List ℓ) (alts : List (Except ε ν))

/-- The nodes among the alternatives of an expansion. -/
def Expansion.nexts : Except ε (Expansion ν ε ℓ) → List ν
  | .ok (.branch _ alts) => alts.filterMap Except.toOption
  | _ => []

theorem Expansion.mem_nexts {y : ν} {p : List ℓ} {alts : List (Except ε ν)} (member : .ok y ∈ alts) :
    y ∈ nexts (.ok (.branch p alts)) := List.mem_filterMap.mpr ⟨.ok y, member, rfl⟩

/-- Where a search gives up when its bound is used up: at a choice only, or at any node. -/
inductive Cut where
  | atChoice
  | atEntry

/-- A node is looked into with this bound left. -/
def Cut.Opens : Cut → Nat → Prop
  | .atChoice, _ => True
  | .atEntry, n => n ≠ 0

theorem Cut.opens_succ (cut : Cut) (n : Nat) : cut.Opens (n + 1) := by
  cases cut with
  | atChoice => trivial
  | atEntry => exact Nat.succ_ne_zero n

section Search
variable (expand : ν → Except ε (Expansion ν ε ℓ)) (cut : Cut)

/-! ### Search without a cache -/

/-- The first alternative that `seek` solves. -/
def searchAlts (seek : ν → Except ε (Option (List ℓ))) : List (Except ε ν) → Except ε (Option (List ℓ))
  | [] => .ok none
  | .error e :: _ => .error e
  | .ok y :: alts =>
    match seek y with
    | .error e => .error e
    | .ok (some q) => .ok (some q)
    | .ok none => searchAlts seek alts

/-- One level of the search; `seek` is none when the bound does not allow a choice. -/
def searchStep (seek : Option (ν → Except ε (Option (List ℓ)))) (x : ν) : Except ε (Option (List ℓ)) :=
  match expand x with
  | .error e => .error e
  | .ok (.solved p) => .ok (some p)
  | .ok .dead => .ok none
  | .ok (.branch p alts) =>
    match seek with
    | none => .ok none
    | some seek => (searchAlts seek alts).map fun r => r.map (p ++ ·)

/-- The search from a node with a bound on the choices. -/
def search : Nat → ν → Except ε (Option (List ℓ))
  | 0 => match cut with
    | .atChoice => searchStep expand none
    | .atEntry => fun _ => .ok none
  | n + 1 => searchStep expand (some (search n))

/-! ### Search with a cache -/

/-- How a search uses its cache: which nodes it looks up, which failures it enters. -/
structure Policy (ν κ : Type) where
  key : ν → κ
  looks : ν → Bool
  marks : ν → Bool

/-- The cache with the failure at a node entered. -/
def Policy.mark (π : Policy ν κ) (x : ν) (C : List κ) : List κ := if π.marks x then π.key x :: C else C

/-- The result at `x` from that of its alternatives. -/
def Policy.conclude (π : Policy ν κ) (x : ν) (p : List ℓ) :
    Except ε (Option (List ℓ) × List κ) → Except ε (Option (List ℓ) × List κ)
  | .error e => .error e
  | .ok (none, C) => .ok (none, π.mark x C)
  | .ok (some q, C) => .ok (some (p ++ q), C)

/-- The first alternative that `seek` solves, and the cache behind it. -/
def memoAlts (seek : ν → List κ → Except ε (Option (List ℓ) × List κ)) :
    List (Except ε ν) → List κ → Except ε (Option (List ℓ) × List κ)
  | [], C => .ok (none, C)
  | .error e :: _, _ => .error e
  | .ok y :: alts, C =>
    match seek y C with
    | .error e => .error e
    | .ok (some q, C) => .ok (some q, C)
    | .ok (none, C) => memoAlts seek alts C

variable [DecidableEq κ] (π : Policy ν κ)

/-- One level of the search with a cache. -/
def memoStep (seek : Option (ν → List κ → Except ε (Option (List ℓ) × List κ))) (x : ν) (C : List κ) :
    Except ε (Option (List ℓ) × List κ) :=
  if π.looks x && C.contains (π.key x) then .ok (none, C)
  else match expand x with
    | .error e => .error e
    | .ok (.solved p) => .ok (some p, C)
    | .ok .dead => .ok (none, π.mark x C)
    | .ok (.branch p alts) =>
      match seek with
      | none => .ok (none, π.mark x C)
      | some seek => π.conclude x p (memoAlts seek alts C)

/-- The search from a node with a bound and a cache. -/
def memoSearch : Nat → ν → List κ → Except ε (Option (List ℓ) × List κ)
  | 0 => match cut with
    | .atChoice => memoStep expand π none
    | .atEntry => fun _ C => .ok (none, C)
  | n + 1 => memoStep expand π (some (memoSearch n))

end Search

/-! ### Solutions -/

section Solutions
variable {expand : ν → Except ε (Expansion ν ε ℓ)} {cut : Cut}

/-- The labels along some choices that lead from `x` to a solved node. -/
inductive Solves (expand : ν → Except ε (Expansion ν ε ℓ)) : ν → List ℓ → Prop where
  | solved {x : ν} {p : List ℓ} (h : expand x = .ok (.solved p)) : Solves expand x p
  | branch {x y : ν} {p q : List ℓ} {alts : List (Except ε ν)} (h : expand x = .ok (.branch p alts))
      (hy : .ok y ∈ alts) (hs : Solves expand y q) : Solves expand x (p ++ q)

variable [DecidableEq κ] {π : Policy ν κ} {C' : List κ} {q : List ℓ}

omit [DecidableEq κ] in
theorem memoAlts_some {seek : ν → List κ → Except ε (Option (List ℓ) × List κ)} :
    ∀ {alts : List (Except ε ν)} {C : List κ}, memoAlts seek alts C = .ok (some q, C') →
      ∃ y C₀, .ok y ∈ alts ∧ seek y C₀ = .ok (some q, C')
  | [], _, h => by simp [memoAlts] at h
  | .error e :: _, _, h => by simp [memoAlts] at h
  | .ok y :: alts, C, h => by
    rw [memoAlts] at h
    match hy : seek y C, h with
    | .ok (some r, C₁), h =>
      exact ⟨y, C, List.mem_cons_self, hy.trans h⟩
    | .ok (none, C₁), h =>
      obtain ⟨z, C₀, hz, hseek⟩ := memoAlts_some h
      exact ⟨z, C₀, List.mem_cons_of_mem _ hz, hseek⟩

omit [DecidableEq κ] in
theorem memoAlts_singleton (seek : ν → List κ → Except ε (Option (List ℓ) × List κ)) (y : ν) (C : List κ) :
    memoAlts seek [.ok y] C = seek y C := by
  rw [memoAlts]
  cases seek y C with
  | error e => rfl
  | ok r => obtain ⟨_ | q, C'⟩ := r <;> rfl

/-- A level that answers found a solved node, or an alternative answered. -/
theorem memoStep_some {seek : Option (ν → List κ → Except ε (Option (List ℓ) × List κ))} {x : ν} {C : List κ}
    (h : memoStep expand π seek x C = .ok (some q, C')) :
    expand x = .ok (.solved q) ∨ ∃ seek' p alts r, seek = some seek' ∧ expand x = .ok (.branch p alts) ∧
      memoAlts seek' alts C = .ok (some r, C') ∧ q = p ++ r := by
  rw [memoStep] at h
  split at h
  · simp at h
  · cases hx : expand x with
    | error e => simp [hx] at h
    | ok ex =>
      simp only [hx] at h
      cases ex with
      | solved p =>
        simp only [Except.ok.injEq, Prod.mk.injEq, Option.some.injEq] at h
        exact .inl (by rw [h.1])
      | dead => simp at h
      | branch p alts =>
        cases seek with
        | none => simp at h
        | some seek =>
          cases halts : memoAlts seek alts C with
          | error e => simp [halts, Policy.conclude] at h
          | ok r =>
            obtain ⟨_ | r, C₁⟩ := r
            · simp [halts, Policy.conclude] at h
            · simp only [halts, Policy.conclude, Except.ok.injEq, Prod.mk.injEq, Option.some.injEq] at h
              obtain ⟨rfl, rfl⟩ := h
              exact .inr ⟨seek, p, alts, r, rfl, rfl, halts, rfl⟩

/-- What the search returns solves its node, whatever the cache holds. -/
theorem memoSearch_sound {n : Nat} {x : ν} {C : List κ} (h : memoSearch expand cut π n x C = .ok (some q, C')) :
    Solves expand x q := by
  induction n generalizing x C C' q with
  | zero =>
    cases cut with
    | atChoice =>
      rw [memoSearch] at h
      obtain hx | ⟨_, _, _, _, hseek, -⟩ := memoStep_some h
      · exact .solved hx
      · cases hseek
    | atEntry => simp [memoSearch] at h
  | succ n ih =>
    obtain hx | ⟨_, p, alts, r, hseek, hx, halts, rfl⟩ := memoStep_some h
    · exact .solved hx
    · cases hseek
      obtain ⟨y, C₀, hy, hr⟩ := memoAlts_some halts
      exact .branch hx hy (ih hr)

end Solutions

/-! ### Searches that do not throw -/

section Quiet
variable {expand : ν → Except ε (Expansion ν ε ℓ)} {cut : Cut} [DecidableEq κ] {π : Policy ν κ} {S : ν → Prop}

omit [DecidableEq κ] in
theorem memoAlts_isOk {seek : ν → List κ → Except ε (Option (List ℓ) × List κ)}
    (quiet : ∀ y C, S y → ∃ r, seek y C = .ok r) :
    ∀ {alts : List (Except ε ν)}, (∀ a ∈ alts, ∃ y, a = .ok y ∧ S y) → ∀ C, ∃ r, memoAlts seek alts C = .ok r
  | [], _, C => ⟨(none, C), rfl⟩
  | a :: alts, nodes, C => by
    obtain ⟨y, rfl, hy⟩ := nodes a List.mem_cons_self
    obtain ⟨⟨r, C'⟩, hr⟩ := quiet y C hy
    rw [memoAlts, hr]
    cases r with
    | some q => exact ⟨(some q, C'), rfl⟩
    | none => exact memoAlts_isOk quiet (fun b hb => nodes b (List.mem_cons_of_mem _ hb)) C'

theorem memoStep_isOk {x : ν} {ex : Expansion ν ε ℓ} (hex : expand x = .ok ex)
    (nodes : ∀ p alts, ex = .branch p alts → ∀ a ∈ alts, ∃ y, a = .ok y ∧ S y)
    {seek : Option (ν → List κ → Except ε (Option (List ℓ) × List κ))}
    (quiet : ∀ f, seek = some f → ∀ y C, S y → ∃ r, f y C = .ok r) (C : List κ) :
    ∃ r, memoStep expand π seek x C = .ok r := by
  rw [memoStep, hex]
  split
  · exact ⟨_, rfl⟩
  · cases ex with
    | solved p => exact ⟨_, rfl⟩
    | dead => exact ⟨_, rfl⟩
    | branch p alts =>
      cases seek with
      | none => exact ⟨_, rfl⟩
      | some f =>
        obtain ⟨⟨r, C'⟩, hr⟩ := memoAlts_isOk (quiet f rfl) (nodes p alts rfl) C
        simp only [hr]
        cases r <;> exact ⟨_, rfl⟩

/-- A search does not throw from a set of nodes whose expansions do not throw and stay in the set. -/
theorem memoSearch_isOk
    (quiet : ∀ x, S x → ∃ ex, expand x = .ok ex ∧
      ∀ p alts, ex = .branch p alts → ∀ a ∈ alts, ∃ y, a = .ok y ∧ S y) (n : Nat) {x : ν} (hx : S x) (C : List κ) :
    ∃ r, memoSearch expand cut π n x C = .ok r := by
  induction n generalizing x C with
  | zero =>
    obtain ⟨ex, hex, nodes⟩ := quiet x hx
    cases cut with
    | atChoice =>
      rw [memoSearch]
      exact memoStep_isOk hex nodes (by simp) C
    | atEntry => exact ⟨_, rfl⟩
  | succ n ih =>
    obtain ⟨ex, hex, nodes⟩ := quiet x hx
    refine memoStep_isOk hex nodes ?_ C
    rintro f ⟨⟩ y D hy
    exact ih hy D

end Quiet

/-! ### Two searches in step -/

section Twin
variable {ν' : Type} {expand : ν → Except ε (Expansion ν ε ℓ)} {expand' : ν' → Except ε (Expansion ν' ε ℓ)}
  {cut : Cut} [DecidableEq κ] {π : Policy ν κ} {π' : Policy ν' κ} {f : ν → ν'}

/-- The expansion with its nodes renamed. -/
def Expansion.map (f : ν → ν') : Expansion ν ε ℓ → Expansion ν' ε ℓ
  | .solved p => .solved p
  | .dead => .dead
  | .branch p alts => .branch p (alts.map fun a => a.map f)

/-- `y` is met while the alternatives are tried one after the other. -/
def metAlts (seek : ν → List κ → Except ε (Option (List ℓ) × List κ)) (met : ν → List κ → ν → Prop) :
    List (Except ε ν) → List κ → ν → Prop
  | .ok z :: alts, C, y => met z C y ∨ ∃ C', seek z C = .ok (none, C') ∧ metAlts seek met alts C' y
  | _, _, _ => False

/-- The search from `x` with the cache `C` comes to `y`. -/
def Met (expand : ν → Except ε (Expansion ν ε ℓ)) (cut : Cut) (π : Policy ν κ) : Nat → ν → List κ → ν → Prop
  | 0, x, _, y => y = x
  | n + 1, x, C, y => y = x ∨ ((π.looks x && C.contains (π.key x)) = false ∧
      ∃ p alts, expand x = .ok (.branch p alts) ∧ metAlts (memoSearch expand cut π n) (Met expand cut π n) alts C y)

omit [DecidableEq κ] in
theorem exists_of_metAlts {seek : ν → List κ → Except ε (Option (List ℓ) × List κ)} {met : ν → List κ → ν → Prop} {y : ν} :
    ∀ {alts : List (Except ε ν)} {C : List κ}, metAlts seek met alts C y → ∃ z C', .ok z ∈ alts ∧ met z C' y
  | .ok z :: alts, C, h => by
    rcases h with here | ⟨C', -, later⟩
    · exact ⟨z, C, List.mem_cons_self, here⟩
    · obtain ⟨z', C'', member, met⟩ := exists_of_metAlts later
      exact ⟨z', C'', List.mem_cons_of_mem _ member, met⟩

theorem Met.mem_of_closed {nodes : List ν} (closed : ∀ x ∈ nodes, Expansion.nexts (expand x) ⊆ nodes) {y : ν} :
    ∀ {n : Nat} {x : ν} {C : List κ}, x ∈ nodes → Met expand cut π n x C y → y ∈ nodes
  | 0, _, _, root, met => met ▸ root
  | n + 1, x, C, root, met => by
    rcases met with rfl | ⟨-, p, alts, branches, met⟩
    · exact root
    · obtain ⟨z, C', member, met⟩ := exists_of_metAlts met
      have next : z ∈ Expansion.nexts (expand x) := branches ▸ Expansion.mem_nexts member
      exact Met.mem_of_closed closed (closed x root next) met

/-- The caches agree on the nodes of `M` and their images. -/
def SameHits (π : Policy ν κ) (π' : Policy ν' κ) (f : ν → ν') (M : ν → Prop) (C C' : List κ) : Prop :=
  ∀ y, M y → (π.key y ∈ C ↔ π'.key (f y) ∈ C')

/-- The same answer or the same exception, with caches that agree. -/
inductive Twin (π : Policy ν κ) (π' : Policy ν' κ) (f : ν → ν') (M : ν → Prop) :
    Except ε (Option (List ℓ) × List κ) → Except ε (Option (List ℓ) × List κ) → Prop where
  | error (e : ε) : Twin π π' f M (.error e) (.error e)
  | ok (r : Option (List ℓ)) {C C' : List κ} (h : SameHits π π' f M C C') : Twin π π' f M (.ok (r, C)) (.ok (r, C'))

/-- What two searches have to share to stay in step: their expansions up to the names of the nodes, what their
    caches look at, and which of the nodes in `M` have the same key. -/
structure InStep (expand : ν → Except ε (Expansion ν ε ℓ)) (expand' : ν' → Except ε (Expansion ν' ε ℓ))
    (π : Policy ν κ) (π' : Policy ν' κ) (f : ν → ν') (S M : ν → Prop) : Prop where
  expands : ∀ x, S x → expand' (f x) = (expand x).map (Expansion.map f)
  closed : ∀ x p alts y, S x → expand x = .ok (.branch p alts) → .ok y ∈ alts → S y
  looks : ∀ x, S x → π'.looks (f x) = π.looks x
  marks : ∀ x, M x → π'.marks (f x) = π.marks x
  keys : ∀ x y, M x → M y → (π.key x = π.key y ↔ π'.key (f x) = π'.key (f y))

namespace InStep
variable {S M : ν → Prop} {C C' : List κ} {x : ν}

omit [DecidableEq κ] in
theorem mark (h : InStep expand expand' π π' f S M) (hx : M x) (hits : SameHits π π' f M C C') :
    SameHits π π' f M (π.mark x C) (π'.mark (f x) C') := by
  intro y hy
  rw [Policy.mark, Policy.mark, h.marks x hx]
  cases π.marks x with
  | false => exact hits y hy
  | true => simpa [h.keys y x hy hx] using or_congr_right (hits y hy)

omit [DecidableEq κ] in
theorem conclude (h : InStep expand expand' π π' f S M) (hx : M x) (p : List ℓ)
    {r r' : Except ε (Option (List ℓ) × List κ)} (twin : Twin π π' f M r r') :
    Twin π π' f M (π.conclude x p r) (π'.conclude (f x) p r') := by
  cases twin with
  | error e => exact .error e
  | ok r hits =>
    cases r with
    | some q => exact .ok (some (p ++ q)) hits
    | none => exact .ok none (h.mark hx hits)

omit [DecidableEq κ] in
theorem tries {seek : ν → List κ → Except ε (Option (List ℓ) × List κ)}
    {seek' : ν' → List κ → Except ε (Option (List ℓ) × List κ)} {met : ν → List κ → ν → Prop}
    {met' : ν' → List κ → ν' → Prop}
    (hseek : ∀ y C C', S y → (∀ z, S z → met y C z → met' (f y) C' (f z) → M z) → SameHits π π' f M C C' →
      Twin π π' f M (seek y C) (seek' (f y) C')) :
    ∀ {alts : List (Except ε ν)} {C C' : List κ}, (∀ y, .ok y ∈ alts → S y) →
      (∀ z, S z → metAlts seek met alts C z → metAlts seek' met' (alts.map fun a => a.map f) C' (f z) → M z) →
      SameHits π π' f M C C' → Twin π π' f M (memoAlts seek alts C) (memoAlts seek' (alts.map fun a => a.map f) C')
  | [], _, _, _, _, hits => .ok none hits
  | .error e :: _, _, _, _, _, _ => .error e
  | .ok y :: alts, C, C', nodes, here, hits => by
    have first := hseek y C C' (nodes y List.mem_cons_self) (fun z hz m m' => here z hz (.inl m) (.inl m')) hits
    simp only [List.map_cons, Except.map, memoAlts]
    generalize hr : seek y C = r at first
    generalize hr' : seek' (f y) C' = r' at first
    cases first with
    | error e => exact .error e
    | ok r hits' =>
      cases r with
      | some q => exact .ok (some q) hits'
      | none =>
        exact tries hseek (fun z hz => nodes z (List.mem_cons_of_mem _ hz))
          (fun z hz m m' => here z hz (.inr ⟨_, hr, m⟩) (.inr ⟨_, hr', m'⟩)) hits'

theorem level (h : InStep expand expand' π π' f S M) (hx : S x) (here : M x) (hits : SameHits π π' f M C C')
    {seek : Option (ν → List κ → Except ε (Option (List ℓ) × List κ))}
    {seek' : Option (ν' → List κ → Except ε (Option (List ℓ) × List κ))}
    (next : (π.looks x && C.contains (π.key x)) = false → (π'.looks (f x) && C'.contains (π'.key (f x))) = false →
      ∀ p alts, expand x = .ok (.branch p alts) → (seek = none ∧ seek' = none) ∨
        ∃ g g', seek = some g ∧ seek' = some g' ∧
          Twin π π' f M (memoAlts g alts C) (memoAlts g' (alts.map fun a => a.map f) C')) :
    Twin π π' f M (memoStep expand π seek x C) (memoStep expand' π' seek' (f x) C') := by
  have hit : (π'.looks (f x) && C'.contains (π'.key (f x))) = (π.looks x && C.contains (π.key x)) := by
    rw [h.looks x hx]
    simp only [List.contains_eq_mem, hits x here]
  rw [memoStep, memoStep, hit, h.expands x hx]
  cases hc : π.looks x && C.contains (π.key x) with
  | true => exact .ok none hits
  | false =>
    cases hex : expand x with
    | error e => exact .error e
    | ok ex =>
      cases ex with
      | solved p => exact .ok (some p) hits
      | dead => exact .ok none (h.mark here hits)
      | branch p alts =>
        obtain ⟨rfl, rfl⟩ | ⟨g, g', rfl, rfl, twin⟩ := next hc (hit.trans hc) p alts hex
        · exact .ok none (h.mark here hits)
        · exact h.conclude here p twin

theorem search (h : InStep expand expand' π π' f S M) (n : Nat) (hx : S x)
    (met : ∀ y, S y → Met expand cut π n x C y → Met expand' cut π' n (f x) C' (f y) → M y)
    (hits : SameHits π π' f M C C') :
    Twin π π' f M (memoSearch expand cut π n x C) (memoSearch expand' cut π' n (f x) C') := by
  induction n generalizing x C C' with
  | zero =>
    cases cut with
    | atChoice => exact h.level hx (met x hx rfl rfl) hits fun _ _ _ _ _ => .inl ⟨rfl, rfl⟩
    | atEntry => exact .ok none hits
  | succ n ih =>
    refine h.level hx (met x hx (.inl rfl) (.inl rfl)) hits fun miss miss' p alts hex => .inr ⟨_, _, rfl, rfl, ?_⟩
    have hex' : expand' (f x) = .ok (.branch p (alts.map fun a => a.map f)) := by
      rw [h.expands x hx, hex]
      rfl
    exact tries (S := S) (fun y D D' hy metY hitsD => ih hy metY hitsD) (fun y hy => h.closed x p alts y hx hex hy)
      (fun z hz m m' => met z hz (.inr ⟨miss, p, alts, hex, m⟩) (.inr ⟨miss', p, _, hex', m'⟩)) hits

end InStep

end Twin

/-! ### Failures within a bound -/

section Failures
variable {expand : ν → Except ε (Expansion ν ε ℓ)} {cut : Cut}

/-- Every branch from `x` ends in a dead node or where the bound is used up, and no alternative throws. -/
inductive Fails (expand : ν → Except ε (Expansion ν ε ℓ)) (cut : Cut) : Nat → ν → Prop where
  | dead {n : Nat} {x : ν} (h : expand x = .ok .dead) : Fails expand cut n x
  | atChoice {x : ν} {p : List ℓ} {alts : List (Except ε ν)} (hcut : cut = .atChoice)
      (h : expand x = .ok (.branch p alts)) : Fails expand cut 0 x
  | atEntry {x : ν} (hcut : cut = .atEntry) : Fails expand cut 0 x
  | exhausted {n : Nat} {x : ν} {p : List ℓ} {ys : List ν} (h : expand x = .ok (.branch p (ys.map .ok)))
      (hys : ∀ y ∈ ys, Fails expand cut n y) : Fails expand cut (n + 1) x

theorem searchAlts_eq_none_iff {seek : ν → Except ε (Option (List ℓ))} : ∀ {alts : List (Except ε ν)},
    searchAlts seek alts = .ok none ↔ ∃ ys : List ν, alts = ys.map .ok ∧ ∀ y ∈ ys, seek y = .ok none
  | [] => by simp [searchAlts]
  | .error e :: alts => by
    simp only [searchAlts, reduceCtorEq, false_iff, not_exists, not_and]
    intro ys h
    cases ys <;> simp at h
  | .ok y :: alts => by
    have ih : searchAlts seek alts = .ok none ↔ ∃ ys : List ν, alts = ys.map .ok ∧ ∀ y ∈ ys, seek y = .ok none :=
      searchAlts_eq_none_iff
    cases hy : seek y with
    | error e =>
      simp only [searchAlts, hy, reduceCtorEq, false_iff, not_exists, not_and]
      rintro (_ | ⟨z, ys⟩) h hys
      · simp at h
      · simp only [List.map_cons, List.cons.injEq, Except.ok.injEq] at h
        simpa [← h.1, hy] using hys z List.mem_cons_self
    | ok r =>
      cases r with
      | some q =>
        simp only [searchAlts, hy, Except.ok.injEq, reduceCtorEq, false_iff, not_exists, not_and]
        rintro (_ | ⟨z, ys⟩) h hys
        · simp at h
        · simp only [List.map_cons, List.cons.injEq, Except.ok.injEq] at h
          simpa [← h.1, hy] using hys z List.mem_cons_self
      | none =>
        simp only [searchAlts, hy, ih]
        constructor
        · rintro ⟨ys, rfl, hys⟩
          exact ⟨y :: ys, rfl, by simpa [hy] using hys⟩
        · rintro ⟨_ | ⟨z, ys⟩, h, hys⟩
          · simp at h
          · simp only [List.map_cons, List.cons.injEq] at h
            exact ⟨ys, h.2, fun w hw => hys w (List.mem_cons_of_mem _ hw)⟩

variable {n m n₀ : Nat} {x x₀ y : ν} {nodes : List ν} {C : List κ}

/-- The search gives up exactly at the nodes that fail within its bound. -/
theorem search_eq_none_iff : search expand cut n x = .ok none ↔ Fails expand cut n x := by
  induction n generalizing x with
  | zero =>
    cases cut with
    | atEntry => exact ⟨fun _ => .atEntry rfl, fun _ => rfl⟩
    | atChoice =>
      rw [search, searchStep]
      cases hx : expand x with
      | error e => exact ⟨fun h => by simp at h, fun h => by cases h <;> simp_all⟩
      | ok ex =>
        cases ex with
        | solved p => exact ⟨fun h => by simp at h, fun h => by cases h <;> simp_all⟩
        | dead => exact ⟨fun _ => .dead hx, fun _ => rfl⟩
        | branch p alts => exact ⟨fun _ => .atChoice rfl hx, fun _ => rfl⟩
  | succ n ih =>
    rw [search, searchStep]
    cases hx : expand x with
    | error e => exact ⟨fun h => by simp at h, fun h => by cases h <;> simp_all⟩
    | ok ex =>
      cases ex with
      | solved p => exact ⟨fun h => by simp at h, fun h => by cases h <;> simp_all⟩
      | dead => exact ⟨fun _ => .dead hx, fun _ => rfl⟩
      | branch p alts =>
        have hmap : (searchAlts (search expand cut n) alts).map (fun r => r.map (p ++ ·)) = .ok none ↔
            searchAlts (search expand cut n) alts = .ok none := by
          cases searchAlts (search expand cut n) alts with
          | error e => simp [Except.map]
          | ok r => cases r <;> simp [Except.map]
        simp only [hmap, searchAlts_eq_none_iff, ih]
        constructor
        · rintro ⟨ys, rfl, hys⟩
          exact .exhausted hx hys
        · intro h
          cases h with
          | dead h => simp [hx] at h
          | exhausted h hys =>
            simp only [hx, Except.ok.injEq, Expansion.branch.injEq] at h
            exact ⟨_, h.2, hys⟩

/-- The nodes that the search from `x₀` meets, each with the bound that is left: an alternative is tried when
    those before it fail. -/
inductive Explores (expand : ν → Except ε (Expansion ν ε ℓ)) (cut : Cut) (n₀ : Nat) (x₀ : ν) : Nat → ν → Prop where
  | root : Explores expand cut n₀ x₀ n₀ x₀
  | alt {n : Nat} {x y : ν} {p : List ℓ} {ys : List ν} {alts : List (Except ε ν)}
      (hx : Explores expand cut n₀ x₀ (n + 1) x) (h : expand x = .ok (.branch p (ys.map .ok ++ .ok y :: alts)))
      (hys : ∀ z ∈ ys, Fails expand cut n z) : Explores expand cut n₀ x₀ n y

/-- What holds at the root and is handed on to every alternative holds at every node met. -/
theorem Explores.invariant {S : Nat → ν → Prop} (hroot : S n₀ x₀)
    (hstep : ∀ n x y p alts, S (n + 1) x → expand x = .ok (.branch p alts) → .ok y ∈ alts → S n y)
    (h : Explores expand cut n₀ x₀ m y) : S m y := by
  induction h with
  | root => exact hroot
  | alt _ hexp _ ih => exact hstep _ _ _ _ _ ih hexp (by simp)

/-- Nodes met by the search from `x₀` have different keys. -/
def KeysSeparate (expand : ν → Except ε (Expansion ν ε ℓ)) (cut : Cut) (key : ν → κ) (n₀ : Nat) (x₀ : ν) : Prop :=
  ∀ m k y z, Explores expand cut n₀ x₀ m y → Explores expand cut n₀ x₀ k z → key y = key z → y = z

theorem Explores.mem_of_closed (hroot : x₀ ∈ nodes) (hclosed : ∀ x ∈ nodes, Expansion.nexts (expand x) ⊆ nodes)
    (h : Explores expand cut n₀ x₀ m y) : y ∈ nodes := by
  refine h.invariant (S := fun _ y => y ∈ nodes) hroot fun n x y p alts hx hexp hy => hclosed x hx ?_
  rw [hexp]
  exact Expansion.mem_nexts hy

theorem keysSeparate_of_closed {key : ν → κ} (hroot : x₀ ∈ nodes)
    (hclosed : ∀ x ∈ nodes, Expansion.nexts (expand x) ⊆ nodes) (hnodup : (nodes.map key).Nodup) :
    KeysSeparate expand cut key n₀ x₀ :=
  fun _ _ _ _ hy hz => List.inj_on_of_nodup_map hnodup (hy.mem_of_closed hroot hclosed) (hz.mem_of_closed hroot hclosed)

theorem Explores.trans {k : Nat} (hx : Explores expand cut n₀ x₀ m x) (hy : Explores expand cut m x k y) :
    Explores expand cut n₀ x₀ k y := by
  induction hy with
  | root => exact hx
  | alt _ h hys ih => exact .alt ih h hys

/-- A node that failed under an alternative which was given up fails also where a later alternative comes to it, with
    the bound that is left there. -/
def FailuresAgree (expand : ν → Except ε (Expansion ν ε ℓ)) (cut : Cut) (n₀ : Nat) (x₀ : ν) : Prop :=
  ∀ n x p (ys : List ν) w alts, Explores expand cut n₀ x₀ (n + 1) x →
    expand x = .ok (.branch p (ys.map .ok ++ .ok w :: alts)) → (∀ z ∈ ys, Fails expand cut n z) → ∀ z ∈ ys, ∀ m k y,
      Explores expand cut n z m y → cut.Opens m → Fails expand cut m y → Explores expand cut n w k y →
        Fails expand cut k y

/-- Where there is never more than one alternative, none is given up for another. -/
theorem failuresAgree_of_closed (hroot : x₀ ∈ nodes) (hclosed : ∀ x ∈ nodes, Expansion.nexts (expand x) ⊆ nodes)
    (hsingle : ∀ x ∈ nodes, (Expansion.nexts (expand x)).length ≤ 1) : FailuresAgree expand cut n₀ x₀ := by
  intro n x p ys w alts hx hexp _ z hz
  have single := hsingle x (hx.mem_of_closed hroot hclosed)
  obtain ⟨before, after, rfl⟩ := List.append_of_mem hz
  simp only [hexp, Expansion.nexts, List.filterMap_append, List.filterMap_map, List.filterMap_cons, Except.toOption,
    List.map_append, List.map_cons, List.length_append, List.length_cons] at single
  omega

variable [DecidableEq κ] {π : Policy ν κ}

/-- The key of a node under `x` that fails. -/
def Entered (expand : ν → Except ε (Expansion ν ε ℓ)) (cut : Cut) (key : ν → κ) (n : Nat) (x : ν) (k : κ) : Prop :=
  ∃ m y, Explores expand cut n x m y ∧ cut.Opens m ∧ key y = k ∧ Fails expand cut m y

/-- The nodes under `x` that have their key in the cache fail. -/
def CacheSound (expand : ν → Except ε (Expansion ν ε ℓ)) (cut : Cut) (key : ν → κ) (n : Nat) (x : ν) (C : List κ) : Prop :=
  ∀ m y, Explores expand cut n x m y → key y ∈ C → Fails expand cut m y

/-- A result with a cache: it answers as `r₀` does and leaves a cache with `G`. -/
def Tracks {α : Type} (G : List κ → Prop) (r : Except ε (α × List κ)) (r₀ : Except ε α) : Prop :=
  r.map Prod.fst = r₀ ∧ ∀ a C, r = .ok (a, C) → G C

omit [DecidableEq κ] in
theorem Tracks.mono {α : Type} {G G' : List κ → Prop} {r : Except ε (α × List κ)} {r₀ : Except ε α} (h : Tracks G r r₀)
    (weaker : ∀ C, G C → G' C) : Tracks G' r r₀ := ⟨h.1, fun a C hr => weaker C (h.2 a C hr)⟩

omit [DecidableEq κ] in
/-- What the cache holds, `G`, may depend on the alternatives that were tried. -/
theorem memoAlts_tracks {seek : ν → List κ → Except ε (Option (List ℓ) × List κ)}
    {seek₀ : ν → Except ε (Option (List ℓ))} : ∀ {alts : List (Except ε ν)} {C : List κ} {G : List ν → List κ → Prop},
    G [] C → (∀ (ys : List ν) y rest, alts = ys.map .ok ++ .ok y :: rest → (∀ z ∈ ys, seek₀ z = .ok none) →
      ∀ C, G ys C → Tracks (G (ys ++ [y])) (seek y C) (seek₀ y)) →
    Tracks (fun C => ∃ ys, G ys C) (memoAlts seek alts C) (searchAlts seek₀ alts)
  | [], C, _, hC, _ => ⟨rfl, fun _ _ h => by cases h; exact ⟨[], hC⟩⟩
  | .error e :: alts, C, _, _, _ => ⟨rfl, fun _ _ h => by cases h⟩
  | .ok y :: alts, C, G, hC, h => by
    obtain ⟨hfst, hG⟩ := h [] y alts rfl (by simp) C hC
    rw [memoAlts, searchAlts, ← hfst]
    cases hy : seek y C with
    | error e => exact ⟨rfl, fun _ _ h => by cases h⟩
    | ok r =>
      obtain ⟨_ | q, C₁⟩ := r
      · -- The first alternative failed, so the others are tried behind it.
        have later : Tracks (fun C => ∃ ys, G (y :: ys) C) (memoAlts seek alts C₁) (searchAlts seek₀ alts) := by
          refine memoAlts_tracks (hG _ _ hy) fun ys z rest halts hys => h (y :: ys) z rest (by simp [halts]) ?_
          refine List.forall_mem_cons.mpr ⟨?_, hys⟩
          rw [← hfst, hy]
          rfl
        exact later.mono fun C ⟨ys, hys⟩ => ⟨y :: ys, hys⟩
      · exact ⟨rfl, fun _ _ h => by cases h; exact ⟨[y], hG _ _ hy⟩⟩

theorem memoStep_tracks {G : List κ → Prop} (hC : G C)
    {seek : Option (ν → List κ → Except ε (Option (List ℓ) × List κ))}
    {seek₀ : Option (ν → Except ε (Option (List ℓ)))}
    (hhit : π.looks x = true → π.key x ∈ C → searchStep expand seek₀ x = .ok none)
    (hmark : searchStep expand seek₀ x = .ok none → ∀ C, G C → G (π.mark x C))
    (hseek : (seek = none ∧ seek₀ = none) ∨ ∃ f f₀, seek = some f ∧ seek₀ = some f₀ ∧
      ∀ p alts, expand x = .ok (.branch p alts) → Tracks G (memoAlts f alts C) (searchAlts f₀ alts)) :
    Tracks G (memoStep expand π seek x C) (searchStep expand seek₀ x) := by
  rw [memoStep]
  split
  · rename_i hit
    simp only [Bool.and_eq_true, List.contains_eq_mem, decide_eq_true_eq] at hit
    exact ⟨(hhit hit.1 hit.2).symm, fun _ _ h => by cases h; exact hC⟩
  · clear hhit
    rw [searchStep] at hmark ⊢
    cases hx : expand x with
    | error e => exact ⟨rfl, fun _ _ h => by cases h⟩
    | ok ex =>
      simp only [hx] at hmark
      cases ex with
      | solved p => exact ⟨rfl, fun _ _ h => by cases h; exact hC⟩
      | dead => exact ⟨rfl, fun _ _ h => by cases h; exact hmark rfl C hC⟩
      | branch p alts =>
        obtain ⟨rfl, rfl⟩ | ⟨f, f₀, rfl, rfl, hf⟩ := hseek
        · exact ⟨rfl, fun _ _ h => by cases h; exact hmark rfl C hC⟩
        · obtain ⟨hfst, hG⟩ := hf p alts hx
          simp only [← hfst] at hmark ⊢
          cases halts : memoAlts f alts C with
          | error e => exact ⟨rfl, fun _ _ h => by cases h⟩
          | ok r =>
            rw [halts] at hmark
            obtain ⟨_ | q, C₁⟩ := r
            · exact ⟨rfl, fun _ _ h => by cases h; exact hmark rfl C₁ (hG _ _ halts)⟩
            · exact ⟨rfl, fun _ _ h => by cases h; exact hG _ _ halts⟩

/-- The cached search answers as the plain one does when no two nodes met share a key and no failure is found in the cache
    where the node would not fail. -/
theorem memoSearch_tracks (hkeys : KeysSeparate expand cut π.key n₀ x₀) (hagree : FailuresAgree expand cut n₀ x₀)
    (hx : Explores expand cut n₀ x₀ n x) (hC : CacheSound expand cut π.key n x C) :
    Tracks (fun C' => ∀ k ∈ C', k ∈ C ∨ Entered expand cut π.key n x k) (memoSearch expand cut π n x C)
      (search expand cut n x) := by
  have mark {n : Nat} {x : ν} {C C' : List κ} (hn : cut.Opens n) (hf : Fails expand cut n x)
      (grown : ∀ k ∈ C', k ∈ C ∨ Entered expand cut π.key n x k) :
      ∀ k ∈ π.mark x C', k ∈ C ∨ Entered expand cut π.key n x k := by
    rw [Policy.mark]
    split
    · exact List.forall_mem_cons.mpr ⟨.inr ⟨n, x, .root, hn, rfl, hf⟩, grown⟩
    · exact grown
  induction n generalizing x C with
  | zero =>
    cases cut with
    | atEntry => exact ⟨rfl, fun _ _ h => by cases h; exact fun _ => .inl⟩
    | atChoice =>
      have hnone : search expand .atChoice 0 x = .ok none ↔ Fails expand .atChoice 0 x := search_eq_none_iff
      rw [search] at hnone ⊢
      rw [memoSearch]
      exact memoStep_tracks (fun _ => .inl) (fun _ hit => hnone.mpr (hC _ _ .root hit))
        (fun h _ => mark trivial (hnone.mp h)) (.inl ⟨rfl, rfl⟩)
  | succ n ih =>
    refine memoStep_tracks (fun _ => .inl) (fun _ hit => search_eq_none_iff.mpr (hC _ _ .root hit))
      (fun h _ => mark (cut.opens_succ n) (search_eq_none_iff.mp h)) (.inr ⟨_, _, rfl, rfl, fun p alts halts => ?_⟩)
    -- The keys that are new come from failures under the alternatives tried so far.
    let G (ys : List ν) (C' : List κ) : Prop :=
      ∀ k ∈ C', k ∈ C ∨ ∃ z ∈ ys, Explores expand cut (n + 1) x n z ∧ Entered expand cut π.key n z k
    have tracks : Tracks (fun C' => ∃ ys, G ys C') (memoAlts (memoSearch expand cut π n) alts C)
        (searchAlts (search expand cut n) alts) := by
      refine memoAlts_tracks (fun _ => .inl) fun ys w rest hsplit hys C' grown => ?_
      subst hsplit
      have fails : ∀ z ∈ ys, Fails expand cut n z := fun z hz => search_eq_none_iff.mp (hys z hz)
      have under : Explores expand cut (n + 1) x n w := .alt .root halts fails
      have sound : CacheSound expand cut π.key n w C' := by
        intro k y hy hit
        rcases grown _ hit with old | ⟨z, hz, hxz, m, y', hy', opens, key, hf⟩
        · exact hC k y (under.trans hy) old
        · obtain rfl := hkeys _ _ _ _ (hx.trans (hxz.trans hy')) (hx.trans (under.trans hy)) key
          exact hagree n x p ys w rest hx halts fails z hz m k y' hy' opens hf hy
      refine (ih (hx.trans under) sound).mono fun C'' later k hk => ?_
      rcases later k hk with before | new
      · exact (grown k before).imp_right fun ⟨z, hz, h⟩ => ⟨z, List.mem_append_left _ hz, h⟩
      · exact .inr ⟨w, by simp, under, new⟩
    refine tracks.mono fun C' ⟨ys, grown⟩ k hk => (grown k hk).imp_right ?_
    rintro ⟨z, -, hxz, m, y, hy, found⟩
    exact ⟨m, y, hxz.trans hy, found⟩

theorem memoSearch_eq_search (hkeys : KeysSeparate expand cut π.key n x) (hagree : FailuresAgree expand cut n x) :
    (memoSearch expand cut π n x []).map Prod.fst = search expand cut n x :=
  (memoSearch_tracks hkeys hagree .root fun _ _ _ hit => absurd hit List.not_mem_nil).1

/-- Without lookups the cache plays no part. -/
theorem memoSearch_map_of_not_looks (hlooks : ∀ x, π.looks x = false) :
    (memoSearch expand cut π n x C).map Prod.fst = search expand cut n x := by
  suffices h : Tracks (fun _ => True) (memoSearch expand cut π n x C) (search expand cut n x) from h.1
  induction n generalizing x C with
  | zero =>
    cases cut with
    | atEntry => exact ⟨rfl, fun _ _ _ => trivial⟩
    | atChoice =>
      rw [memoSearch, search]
      exact memoStep_tracks trivial (by simp [hlooks]) (fun _ _ _ => trivial) (.inl ⟨rfl, rfl⟩)
  | succ n ih =>
    refine memoStep_tracks trivial (by simp [hlooks]) (fun _ _ _ => trivial) (.inr ⟨_, _, rfl, rfl, fun p alts _ => ?_⟩)
    have tracks : Tracks (fun _ => ∃ _ : List ν, True) (memoAlts (memoSearch expand cut π n) alts C)
        (searchAlts (search expand cut n) alts) := memoAlts_tracks trivial fun _ _ _ _ _ _ _ => ih
    exact tracks.mono fun _ _ => trivial

/-! ### Solutions within a bound -/

omit [DecidableEq κ]

/-- The labels along choices to a solved node that a search with the bound `n` can come to. -/
inductive SolvesIn (expand : ν → Except ε (Expansion ν ε ℓ)) (cut : Cut) : Nat → ν → List ℓ → Prop where
  | solved {n : Nat} {x : ν} {p : List ℓ} (hn : cut.Opens n) (h : expand x = .ok (.solved p)) : SolvesIn expand cut n x p
  | branch {n : Nat} {x y : ν} {p q : List ℓ} {alts : List (Except ε ν)} (h : expand x = .ok (.branch p alts))
      (hy : .ok y ∈ alts) (hs : SolvesIn expand cut n y q) : SolvesIn expand cut (n + 1) x (p ++ q)

namespace SolvesIn

variable {n : Nat} {q : List ℓ} {x : ν}

/-- A search that gives up at a choice only needs no more bound. -/
theorem atChoice {m : Nat} (h : SolvesIn expand cut n x q) (le : n ≤ m) : SolvesIn expand .atChoice m x q := by
  induction h generalizing m with
  | solved _ h => exact .solved trivial h
  | branch h hy _ ih =>
    obtain ⟨m, rfl⟩ := Nat.exists_eq_add_of_le' (Nat.le_of_add_left_le le)
    exact .branch h hy (ih (Nat.le_of_succ_le_succ le))

end SolvesIn

end Failures
end WeftWarp
