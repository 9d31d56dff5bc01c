import Mathlib.Algebra.Ring.Int.Defs
import WeftWarp.Lib.OrderedMap
import WeftWarp.Progression
import WeftWarp.Theorems.S7Numbers

/-! # The ledger of progression

The profile that a replay reaches is what its log adds up to, in exact integers. A replay with the numbers of s7
follows the exact one as long as its balance has 64 bits. -/

namespace WeftWarp
namespace Progression
open S7

/-! ## Items -/

section Items
variable {p : Profile Int} {item k : Int64}

theorem lookup_mapAt (item : Int64) (f : Int → Int) (k : Int64) (items : List (Int64 × Int)) :
    (items.map fun e => if e.1 = item then (e.1, f e.2) else e).lookup k =
      (items.lookup k).map fun n => if k = item then f n else n := by
  induction items with
  | nil => rfl
  | cons e items ih =>
    obtain ⟨key, n⟩ := e
    have entry : (if key = item then (key, f n) else (key, n)) = (key, if key = item then f n else n) := by
      split <;> rfl
    rw [List.map_cons, entry, List.lookup_cons, List.lookup_cons, ih]
    by_cases here : k = key
    · subst here
      rw [beq_self_eq_true]
      rfl
    · rw [beq_false_of_ne here]

theorem keys_mapAt (item : Int64) (f : Int → Int) (items : List (Int64 × Int)) :
    (items.map fun e => if e.1 = item then (e.1, f e.2) else e).map Prod.fst = items.map Prod.fst := by
  rw [List.map_map]
  refine List.map_congr_left fun e _ => ?_
  dsimp only [Function.comp_apply]
  split <;> rfl

theorem lookup_filter_value (keep : Int → Bool) (k : Int64) {items : List (Int64 × Int)}
    (unique : (items.map Prod.fst).Nodup) :
    (items.filter fun e => keep e.2).lookup k = (items.lookup k).filter keep := by
  induction items with
  | nil => rfl
  | cons e items ih =>
    obtain ⟨key, n⟩ := e
    obtain ⟨fresh, unique⟩ := List.nodup_cons.mp unique
    have ih := ih unique
    by_cases here : k = key
    · subst here
      have absent : items.lookup k = none := lookup_eq_none_of_notMem fresh
      rw [absent] at ih
      cases kept : keep n <;> simp [kept, ih, Option.filter_some]
    · have other : (k == key) = false := beq_false_of_ne here
      cases kept : keep n <;> simp [kept, List.lookup_cons, other, ih]

theorem countOf_addItem (p : Profile Int) (item k : Int64) :
    countOf (addItem p item 1) k = countOf p k + if k = item then 1 else 0 := by
  rw [addItem]
  split
  · rename_i held
    have found := lookup_mapAt item (· + 1) k p.items
    simp only [countOf, add_int, found]
    by_cases same : k = item
    · subst same
      obtain ⟨n, found⟩ := Option.isSome_iff_exists.mp held
      simp [found]
    · simp [same]
  · rename_i absent
    rw [countOf, List.lookup_append, countOf]
    by_cases same : k = item
    · subst same
      simp [Option.not_isSome_iff_eq_none.mp absent]
    · simp [same, List.lookup_cons, beq_false_of_ne same]

/-- Every item stands once, with a positive count. -/
structure Stock (items : List (Int64 × Int)) : Prop where
  unique : (items.map Prod.fst).Nodup
  positive : ∀ e ∈ items, 0 < e.2

theorem addItem_rest {N : Type} [Arithmetic N] (p : Profile N) (item : Int64) (d : N) :
    (addItem p item d).credits = p.credits ∧ (addItem p item d).affinity = p.affinity ∧
      (addItem p item d).arts = p.arts := by
  rw [addItem]
  split <;> exact ⟨rfl, rfl, rfl⟩

theorem stock_addItem (stock : Stock p.items) : Stock (addItem p item 1).items := by
  rw [addItem]
  split
  · refine ⟨?_, fun e mem => ?_⟩
    · simp only [add_int]
      rw [keys_mapAt item (· + 1)]
      exact stock.unique
    · obtain ⟨e', mem', rfl⟩ := List.mem_map.mp mem
      have := stock.positive e' mem'
      split
      · rw [add_int]
        omega
      · exact this
  · rename_i absent
    refine ⟨?_, fun e mem => ?_⟩
    · rw [List.map_append]
      refine List.nodup_append.mpr ⟨stock.unique, List.nodup_singleton _, ?_⟩
      rintro a mem b new rfl
      obtain rfl : a = item := by simpa using new
      obtain ⟨e, held, rfl⟩ := List.mem_map.mp mem
      exact absent (List.lookup_isSome_iff.mpr ⟨e, held, beq_self_eq_true _⟩)
    · rcases List.mem_append.mp mem with mem | mem
      · exact stock.positive e mem
      · rw [List.mem_singleton.mp mem]
        exact Int.one_pos

theorem stock_removeItem (stock : Stock p.items) : Stock (removeItem p item).items := by
  refine ⟨?_, fun e mem => by simpa using (List.mem_filter.mp mem).2⟩
  have keys := stock.unique
  rw [← keys_mapAt item (· - 1)] at keys
  exact keys.sublist (List.filter_sublist.map Prod.fst)

theorem countOf_removeItem (stock : Stock p.items) (held : countOf p item ≠ 0) (k : Int64) :
    countOf (removeItem p item) k = countOf p k - if k = item then 1 else 0 := by
  have keys := stock.unique
  rw [← keys_mapAt item (· - 1)] at keys
  have left := lookup_filter_value (fun n => decide (0 < n)) k keys
  rw [lookup_mapAt item (· - 1)] at left
  simp only [countOf, removeItem, sub_int, ofInteger_one, ofInteger_zero]
  rw [show (fun e : Int64 × Int => Arithmetic.lt 0 e.2) = fun e => decide (0 < e.2) from rfl, left]
  cases found : p.items.lookup k with
  | none =>
    have other : k ≠ item := by
      rintro rfl
      simp [countOf, found] at held
    simp [other]
  | some n =>
    have positive : 0 < n := stock.positive (k, n) (mem_of_lookup found)
    by_cases same : k = item
    · subst same
      by_cases last : 1 < n
      · simp [last, Option.filter_some]
      · have : n = 1 := by omega
        simp [this, Option.filter_some]
    · simp [same, positive, Option.filter_some]

end Items

/-! ## What an event does -/

section Step
variable {N : Type}

/-- The event was refused. -/
def Output.refused : Output N → Bool
  | .refusedNoItem _ | .refusedDup _ | .refusedGate _ | .refusedPoor _ => true
  | _ => false

variable [Arithmetic N]

/-- What an event can do, and its output. -/
inductive Does (p : Profile N) : Event → Profile N → Output N → Prop
  | grant (item : Int64) : Does p (.grant item) (addItem p item (Arithmetic.ofInteger 1)) (.granted item)
  | sell (item price : Int64) (held : Arithmetic.eq (countOf p item) (Arithmetic.ofInteger 0) = false) :
    Does p (.sell item price)
      (removeItem { p with credits := Arithmetic.add p.credits (Arithmetic.ofInteger price) } item) (.sold item price)
  | buyArt (art : Int64) (fresh : art ∉ p.arts)
    (gate : Arithmetic.lt p.affinity (Arithmetic.ofInteger (artAffinityReq art)) = false)
    (price : Arithmetic.lt p.credits (Arithmetic.ofInteger (artCost art)) = false) :
    Does p (.buyArt art)
      { p with credits := Arithmetic.sub p.credits (Arithmetic.ofInteger (artCost art)), arts := p.arts ++ [art] }
      (.learned art)
  | train : Does p .train { p with affinity := Arithmetic.add p.affinity (Arithmetic.ofInteger 1) }
      (.trained (Arithmetic.add p.affinity (Arithmetic.ofInteger 1)))
  | refuseSale (item price : Int64) : Does p (.sell item price) p (.refusedNoItem item)
  | refuseArt (art : Int64) (out : Output N) (refused : out.refused = true) : Does p (.buyArt art) p out

theorem progressionStep_cases (p : Profile N) (e : Event) :
    progressionStep p e = (p, []) ∧ e = .other ∨
      ∃ p' out, progressionStep p e = (p', [out]) ∧ Does p e p' out := by
  cases e with
  | grant item => exact .inr ⟨_, _, rfl, .grant item⟩
  | sell item price =>
    rw [progressionStep]
    split
    · exact .inr ⟨_, _, rfl, .refuseSale item price⟩
    · rename_i held
      exact .inr ⟨_, _, rfl, .sell item price (Bool.eq_false_iff.mpr held)⟩
  | buyArt art =>
    rw [progressionStep]
    split_ifs with known gate price
    · exact .inr ⟨_, _, rfl, .refuseArt art _ rfl⟩
    · exact .inr ⟨_, _, rfl, .refuseArt art _ rfl⟩
    · exact .inr ⟨_, _, rfl, .refuseArt art _ rfl⟩
    · exact .inr ⟨_, _, rfl, .buyArt art known (Bool.eq_false_iff.mpr gate) (Bool.eq_false_iff.mpr price)⟩
  | train => exact .inr ⟨_, _, rfl, .train⟩
  | other => exact .inl ⟨rfl, rfl⟩

theorem refused_unchanged {p : Profile N} {e : Event} {out : Output N} (logged : out ∈ (progressionStep p e).2)
    (refused : out.refused = true) : (progressionStep p e).1 = p := by
  rcases progressionStep_cases p e with ⟨step, -⟩ | ⟨p', out', step, does⟩
  · rw [step]
  · rw [step] at logged ⊢
    obtain rfl := List.mem_singleton.mp logged
    cases does with
    | refuseSale item price => rfl
    | refuseArt art out' refused' => rfl
    | grant item => cases refused
    | sell item price held => cases refused
    | buyArt art fresh gate price => cases refused
    | train => cases refused

end Step

/-! ## The ledger -/

/-- The item and the price of a sale. -/
def Output.sale {N : Type} : Output N → Option (Int64 × Int64)
  | .sold item price => some (item, price)
  | _ => none

/-- The art that was learned. -/
def Output.art {N : Type} : Output N → Option Int64
  | .learned art => some art
  | _ => none

/-- The sales of a log. -/
def sales {N : Type} (log : List (Output N)) : List (Int64 × Int64) := log.filterMap Output.sale

/-- The arts of a log. -/
def learnedArts {N : Type} (log : List (Output N)) : List Int64 := log.filterMap Output.art

/-- What the sales of a log bring. -/
def income {N : Type} (log : List (Output N)) : Int := ((sales log).map fun sale => sale.2.toInt).sum

/-- What the arts of a log cost. -/
def expense {N : Type} (log : List (Output N)) : Int := ((learnedArts log).map fun art => (artCost art).toInt).sum

/-- What the profile owes to the events and to the log. -/
structure Ledger (events : List Event) (p : Profile Int) (log : List (Output Int)) : Prop where
  credits : p.credits = 200 + income log - expense log
  solvent : (∀ item price, .sell item price ∈ events → 0 ≤ price.toInt) → 0 ≤ p.credits
  affinity : p.affinity = 15 + events.count .train
  arts : p.arts = learnedArts log
  distinct : p.arts.Nodup
  keys : (p.items.map Prod.fst).Nodup
  positive : ∀ e ∈ p.items, 0 < e.2
  counts : ∀ item, countOf p item = events.count (.grant item) - ((sales log).map Prod.fst).count item

@[simp] theorem sales_singleton (out : Output Int) : sales [out] = out.sale.toList := by
  cases out <;> rfl

@[simp] theorem learnedArts_singleton (out : Output Int) : learnedArts [out] = out.art.toList := by
  cases out <;> rfl

theorem ledger_initial : Ledger [] initialProfile [] where
  credits := rfl
  solvent := fun _ => by decide
  affinity := rfl
  arts := rfl
  distinct := List.nodup_nil
  keys := List.nodup_nil
  positive := fun e mem => nomatch mem
  counts := fun _ => rfl

/-- What one event and the outputs it logs add to the profile. -/
structure Books (e : Event) (outs : List (Output Int)) (p p' : Profile Int) : Prop where
  credits : p'.credits = p.credits + income outs - expense outs
  solvent : (∀ item price, e = .sell item price → 0 ≤ price.toInt) → 0 ≤ p.credits → 0 ≤ p'.credits
  affinity : p'.affinity = p.affinity + [e].count .train
  arts : p'.arts = p.arts ++ learnedArts outs
  distinct : p.arts.Nodup → p'.arts.Nodup
  stock : Stock p.items → Stock p'.items
  counts : Stock p.items →
    ∀ k, countOf p' k = countOf p k + [e].count (.grant k) - ((sales outs).map Prod.fst).count k

section Step
variable {events : List Event} {p p' : Profile Int} {log outs : List (Output Int)} {e : Event} {out : Output Int}

theorem Ledger.stock (ledger : Ledger events p log) : Stock p.items := ⟨ledger.keys, ledger.positive⟩

theorem Ledger.next (ledger : Ledger events p log) (books : Books e outs p p') :
    Ledger (events ++ [e]) p' (log ++ outs) := by
  have sold : sales (log ++ outs) = sales log ++ sales outs := List.filterMap_append
  have learned : learnedArts (log ++ outs) = learnedArts log ++ learnedArts outs := List.filterMap_append
  have stock := books.stock ledger.stock
  constructor
  · rw [books.credits, ledger.credits, income, income, income, expense, expense, expense, sold, learned, List.map_append,
      List.map_append, List.sum_append, List.sum_append]
    omega
  · intro priced
    refine books.solvent (fun item price here => ?_) (ledger.solvent fun item price mem => ?_)
    · exact priced item price (here ▸ List.mem_append_right _ List.mem_cons_self)
    · exact priced item price (List.mem_append_left _ mem)
  · rw [books.affinity, ledger.affinity, List.count_append]
    omega
  · rw [books.arts, ledger.arts, learned]
  · exact books.distinct ledger.distinct
  · exact stock.unique
  · exact stock.positive
  · intro k
    rw [books.counts ledger.stock, ledger.counts, sold, List.map_append, List.count_append, List.count_append]
    omega

/-- An event that leaves the profile as it is. -/
theorem Books.idle (untrained : e ≠ .train) (ungranted : ∀ item, e ≠ .grant item) (unsold : sales outs = [])
    (unlearned : learnedArts outs = []) : Books e outs p p where
  credits := by simp [income, expense, unsold, unlearned]
  solvent := fun _ before => before
  affinity := by simp [untrained]
  arts := by rw [unlearned, List.append_nil]
  distinct := id
  stock := id
  counts := fun _ k => by simp [unsold, ungranted k]

theorem Books.refuse (untrained : e ≠ .train) (ungranted : ∀ item, e ≠ .grant item) (refused : out.refused = true) :
    Books e [out] p p := by
  refine .idle untrained ungranted ?_ ?_
  · cases out <;> first | rfl | cases refused
  · cases out <;> first | rfl | cases refused

theorem Books.grant (p : Profile Int) (item : Int64) : Books (.grant item) [.granted item] p (addItem p item 1) := by
  obtain ⟨credits, affinity, arts⟩ := addItem_rest p item 1
  constructor
  · simp [credits, income, expense, Output.sale, Output.art]
  · exact fun _ before => credits ▸ before
  · simp [affinity]
  · rw [arts]
    exact (List.append_nil _).symm
  · exact fun before => arts ▸ before
  · exact stock_addItem
  · intro _ k
    rw [countOf_addItem]
    by_cases same : k = item
    · simp [same, Output.sale]
    · simp [same, Ne.symm same, Output.sale]

theorem Books.sell (p : Profile Int) (item price : Int64) (held : countOf p item ≠ 0) :
    Books (.sell item price) [.sold item price] p (removeItem { p with credits := p.credits + price.toInt } item) where
  credits := by simp [removeItem, income, expense, Output.sale, Output.art]
  solvent := fun priced before => Int.add_nonneg before (priced item price rfl)
  affinity := (Int.add_zero _).symm
  arts := (List.append_nil _).symm
  distinct := id
  stock := stock_removeItem
  counts := fun stock k => by
    rw [countOf_removeItem (p := { p with credits := p.credits + price.toInt }) stock held k]
    change countOf p k - _ = _
    by_cases same : k = item
    · simp [same, Output.sale]
    · simp [same, Ne.symm same, Output.sale]

theorem Books.buyArt (p : Profile Int) (art : Int64) (fresh : art ∉ p.arts) (price : (artCost art).toInt ≤ p.credits) :
    Books (.buyArt art) [.learned art] p
      { p with credits := p.credits - (artCost art).toInt, arts := p.arts ++ [art] } where
  credits := by simp [income, expense, Output.sale, Output.art]
  solvent := fun _ _ => Int.sub_nonneg_of_le price
  affinity := (Int.add_zero _).symm
  arts := rfl
  distinct := fun before => List.concat_eq_append ▸ before.concat fresh
  stock := id
  counts := fun _ k => by simp [countOf, Output.sale]

theorem Books.train (p : Profile Int) :
    Books .train [.trained (p.affinity + 1)] p { p with affinity := p.affinity + 1 } where
  credits := by simp [income, expense, Output.sale, Output.art]
  solvent := fun _ before => before
  affinity := rfl
  arts := (List.append_nil _).symm
  distinct := id
  stock := id
  counts := fun _ k => by simp [countOf, Output.sale]

theorem books_step (p : Profile Int) (e : Event) : Books e (progressionStep p e).2 p (progressionStep p e).1 := by
  rcases progressionStep_cases p e with ⟨step, rfl⟩ | ⟨p', out, step, does⟩
  · rw [step]
    exact .idle nofun (fun _ => nofun) rfl rfl
  · rw [step]
    cases does with
    | grant item => exact .grant p item
    | sell item price held => exact .sell p item price (by simpa [Bool.eq_false_iff] using held)
    | buyArt art fresh gate price => exact .buyArt p art fresh (by simpa [Bool.eq_false_iff] using price)
    | train => exact .train p
    | refuseSale item price => exact .refuse nofun (fun _ => nofun) rfl
    | refuseArt art out refused => exact .refuse nofun (fun _ => nofun) refused

end Step

/-- The replay in exact integers. -/
def exactReplay (events : List Event) : Profile Int × List (Output Int) := progressionReplay events

theorem exactReplay_ledger (events : List Event) : Ledger events (exactReplay events).1 (exactReplay events).2 :=
  Replay.invariant Ledger ledger_initial (fun _ p _ e ledger => ledger.next (books_step p e)) events

/-- The art was bought at one of the events, by a profile that had passed its gate. -/
def Bought (events : List Event) (art : Int64) : Prop :=
  ∃ before after, events = before ++ .buyArt art :: after ∧
    (progressionStep (exactReplay before).1 (.buyArt art)).2 = [.learned art] ∧
    (artAffinityReq art).toInt ≤ (exactReplay before).1.affinity

theorem mem_arts_step {p : Profile Int} {e : Event} {art : Int64} (mem : art ∈ (progressionStep p e).1.arts) :
    art ∈ p.arts ∨ e = .buyArt art ∧ (progressionStep p e).2 = [.learned art] ∧
      (artAffinityReq art).toInt ≤ p.affinity := by
  rcases progressionStep_cases p e with ⟨step, -⟩ | ⟨p', out, step, does⟩
  · rw [step] at mem
    exact .inl mem
  · rw [step] at mem ⊢
    cases does with
    | grant item =>
      obtain ⟨-, -, arts⟩ := addItem_rest p item (Arithmetic.ofInteger 1)
      exact .inl (arts ▸ mem)
    | sell item price held => exact .inl mem
    | train => exact .inl mem
    | refuseSale item price => exact .inl mem
    | refuseArt art' out refused => exact .inl mem
    | buyArt art' fresh gate price =>
      rcases List.mem_append.mp mem with mem | mem
      · exact .inl mem
      · obtain rfl := List.mem_singleton.mp mem
        exact .inr ⟨rfl, rfl, by simpa [Bool.eq_false_iff] using gate⟩

theorem arts_bought (events : List Event) : ∀ art ∈ (exactReplay events).1.arts, Bought events art := by
  induction events using List.reverseRecOn with
  | nil => exact fun art mem => nomatch mem
  | append_singleton events e ih =>
    intro art mem
    rw [exactReplay, progressionReplay, Replay.replay_concat] at mem
    rcases mem_arts_step mem with earlier | ⟨rfl, learned, gate⟩
    · obtain ⟨before, after, split, learned, gate⟩ := ih art earlier
      exact ⟨before, after ++ [e], by rw [split, List.append_assoc, List.cons_append], learned, gate⟩
    · exact ⟨events, [], rfl, learned, gate⟩

/-! ## Numbers of s7 -/

section Follows
variable {R : Type}

/-- The profile with the numbers of s7 for the exact ones. -/
def Profile.ofInt (p : Profile Int) : Profile (Number R) :=
  ⟨.ofInt p.credits, .ofInt p.affinity, p.items.map fun e => (e.1, .ofInt e.2), p.arts⟩

/-- The output with a number of s7 for the exact one. -/
def Output.ofInt : Output Int → Output (Number R)
  | .granted item => .granted item
  | .refusedNoItem item => .refusedNoItem item
  | .sold item price => .sold item price
  | .refusedDup art => .refusedDup art
  | .refusedGate art => .refusedGate art
  | .refusedPoor art => .refusedPoor art
  | .learned art => .learned art
  | .trained affinity => .trained (.ofInt affinity)

/-- Every number of the profile has 64 bits. -/
structure Bounded (p : Profile Int) : Prop where
  credits : Fits p.credits
  affinity : Fits p.affinity
  items : ∀ e ∈ p.items, Fits e.2

theorem lookup_ofInt (items : List (Int64 × Int)) (item : Int64) :
    (items.map fun e => (e.1, (Number.ofInt e.2 : Number R))).lookup item = (items.lookup item).map Number.ofInt := by
  induction items with
  | nil => rfl
  | cons e items ih =>
    rw [List.map_cons, List.lookup_cons, List.lookup_cons, ih]
    cases item == e.1 <;> rfl

variable [Double R] {p : Profile Int}

theorem countOf_ofInt (p : Profile Int) (item : Int64) :
    countOf (p.ofInt : Profile (Number R)) item = Number.ofInt (countOf p item) := by
  rw [countOf, Profile.ofInt, lookup_ofInt, countOf]
  cases p.items.lookup item <;> rfl

theorem fits_countOf (bounded : Bounded p) (item : Int64) : Fits (countOf p item) := by
  rw [countOf]
  cases found : p.items.lookup item with
  | none => decide
  | some n => exact bounded.items (item, n) (mem_of_lookup found)

theorem addItem_ofInt (before : Bounded p) {item : Int64} (after : Bounded (addItem p item 1)) :
    addItem (p.ofInt : Profile (Number R)) item (Arithmetic.ofInteger 1) = (addItem p item 1).ofInt := by
  rw [addItem] at after ⊢
  rw [addItem, Profile.ofInt, lookup_ofInt, Option.isSome_map]
  split
  · rename_i held
    rw [if_pos held] at after
    simp only [Profile.ofInt, Profile.mk.injEq, List.map_map, true_and, and_true]
    refine List.map_congr_left fun e mem => ?_
    have entry := after.items _ (List.mem_map_of_mem mem)
    dsimp only [Function.comp_apply]
    split
    · rename_i same
      rw [if_pos same] at entry
      rw [Number.add_ofInteger 1 (before.items e mem) entry]
      rfl
    · rfl
  · simp only [Profile.ofInt, List.map_append]
    rfl

theorem removeItem_ofInt (bounded : Bounded p) (stock : Stock p.items) (item : Int64) :
    removeItem (p.ofInt : Profile (Number R)) item = (removeItem p item).ofInt := by
  have less : ∀ e ∈ p.items, Fits (e.2 - 1) := fun e mem => by
    have positive := stock.positive e mem
    have fits := bounded.items e mem
    exact ⟨by omega, by have := fits.2; omega⟩
  have mapped : (p.items.map fun e => (e.1, (Number.ofInt e.2 : Number R))).map (fun e =>
      if e.1 = item then (e.1, Arithmetic.sub e.2 (Arithmetic.ofInteger 1)) else e) =
      (p.items.map fun e => if e.1 = item then (e.1, e.2 - 1) else e).map fun e => (e.1, Number.ofInt e.2) := by
    rw [List.map_map, List.map_map]
    refine List.map_congr_left fun e mem => ?_
    dsimp only [Function.comp_apply]
    split
    · rw [Number.sub_ofInteger 1 (bounded.items e mem) (less e mem)]
      rfl
    · rfl
  simp only [removeItem, Profile.ofInt, Profile.mk.injEq, true_and, and_true]
  rw [mapped, List.filter_map]
  refine congrArg _ (List.filter_congr fun e mem => ?_)
  obtain ⟨e', mem', rfl⟩ := List.mem_map.mp mem
  have fits : Fits (if e'.1 = item then (e'.1, e'.2 - 1) else e').2 := by
    split
    · exact less e' mem'
    · exact bounded.items e' mem'
  rw [Function.comp_apply, Number.ofInteger_eq, Number.lt_ofInt (fits_toInt 0) fits]
  rfl

/-- An event that keeps the numbers within 64 bits does the same in both arithmetics. -/
theorem progressionStep_ofInt {e : Event} (before : Bounded p) (stock : Stock p.items)
    (after : Bounded (progressionStep p e).1) :
    progressionStep (p.ofInt : Profile (Number R)) e =
      ((progressionStep p e).1.ofInt, (progressionStep p e).2.map Output.ofInt) := by
  cases e with
  | grant item =>
    rw [progressionStep, addItem_ofInt before after]
    rfl
  | sell item price =>
    rw [progressionStep, countOf_ofInt, Number.eq_ofInteger 0 (fits_countOf before item)]
    rw [progressionStep] at after ⊢
    split
    · rfl
    · rename_i held
      rw [if_neg held] at after
      have sum : Fits (p.credits + price.toInt) := after.credits
      have paid : Bounded { p with credits := p.credits + price.toInt } := ⟨sum, before.affinity, before.items⟩
      have removed := removeItem_ofInt (R := R) paid stock item
      have added := Number.add_ofInteger (R := R) price before.credits sum
      simp only [Profile.ofInt, added] at removed ⊢
      rw [removed]
      rfl
  | buyArt art =>
    have gate := Number.lt_ofInteger (R := R) (artAffinityReq art) before.affinity
    have poor := Number.lt_ofInteger (R := R) (artCost art) before.credits
    rw [progressionStep] at after ⊢
    rw [progressionStep]
    simp only [Profile.ofInt, gate, poor]
    split_ifs with known gated priced
    · rfl
    · rfl
    · rfl
    · rw [if_neg known, if_neg gated, if_neg priced] at after
      rw [Number.sub_ofInteger _ before.credits after.credits]
      rfl
  | train =>
    have added := Number.add_ofInteger (R := R) 1 before.affinity after.affinity
    simp only [progressionStep, Profile.ofInt, added]
    rfl
  | other => rfl

omit [Double R] in
theorem bounded_exactReplay {events : List Event} (short : events.length < 2 ^ 63 - 15)
    (fits : Fits (exactReplay events).1.credits) : Bounded (exactReplay events).1 := by
  have ledger := exactReplay_ledger events
  refine ⟨fits, ?_, fun e mem => ?_⟩
  · have trains := List.count_le_length (a := Event.train) (l := events)
    rw [ledger.affinity]
    exact ⟨by omega, by omega⟩
  · have positive := ledger.positive e mem
    have found : (exactReplay events).1.items.lookup e.1 = some e.2 :=
      OrderedMap.find?_of_mem (m := ⟨_, ledger.keys⟩) mem
    have count := ledger.counts e.1
    rw [countOf, found] at count
    have grants := List.count_le_length (a := Event.grant e.1) (l := events)
    dsimp only [Option.getD_some] at count
    exact ⟨by omega, by omega⟩

theorem progressionReplay_ofInt {events : List Event} (short : events.length < 2 ^ 63 - 15)
    (fits : ∀ before, before <+: events → Fits (exactReplay before).1.credits) :
    (progressionReplay events : Profile (Number R) × List (Output (Number R))) =
      ((exactReplay events).1.ofInt, (exactReplay events).2.map Output.ofInt) := by
  induction events using List.reverseRecOn with
  | nil => rfl
  | append_singleton events e ih =>
    have front : events <+: events ++ [e] := List.prefix_append events [e]
    have shorter : events.length < 2 ^ 63 - 15 := Nat.lt_of_le_of_lt front.length_le short
    have ih := ih shorter fun before mem => fits before (mem.trans front)
    have before := bounded_exactReplay shorter (fits events front)
    have after := bounded_exactReplay short (fits _ (List.prefix_refl _))
    have stock := (exactReplay_ledger events).stock
    have exact : exactReplay (events ++ [e]) = ((progressionStep (exactReplay events).1 e).1,
        (exactReplay events).2 ++ (progressionStep (exactReplay events).1 e).2) := Replay.replay_concat events e
    rw [exact] at after ⊢
    rw [progressionReplay, Replay.replay_concat, ← progressionReplay, ih, progressionStep_ofInt before stock after,
      List.map_append]

end Follows

/-- As long as the exact balance has 64 bits, the profile and the log of a replay are the exact ones. The exact profile is
    what the events and the log add up to, and every art in it met its gate when it was bought. A refused event leaves the
    profile as it was. -/
theorem progressionReplay_ledger (R : Type) [Double R] (events : List Event) (short : events.length < 2 ^ 63 - 15)
    (fits : ∀ before, before <+: events → Fits (exactReplay before).1.credits) :
    ((progressionReplay events : Profile (Number R) × List (Output (Number R))) =
        ((exactReplay events).1.ofInt, (exactReplay events).2.map Output.ofInt) ∧ Bounded (exactReplay events).1) ∧
      Ledger events (exactReplay events).1 (exactReplay events).2 ∧
      (∀ art ∈ (exactReplay events).1.arts, Bought events art) ∧
      ∀ (p : Profile (Number R)) e, ∀ out ∈ (progressionStep p e).2, out.refused = true → (progressionStep p e).1 = p :=
  ⟨⟨progressionReplay_ofInt short fits, bounded_exactReplay short (fits events (List.prefix_refl events))⟩,
    exactReplay_ledger events, arts_bought events, fun _ _ _ logged refused => refused_unchanged logged refused⟩

/-- Two grants, a sale, a purchase behind the gate and a refused one. -/
def shopping : List Event := [.grant 7, .grant 7, .sell 7 50, .buyArt 1, .train, .buyArt 1]

theorem progressionReplay_ledger_shopping :
    (progressionReplay shopping : Profile (Number IntegralDouble) × _) =
        (⟨.integer 150, .integer 16, [(7, .integer 1)], [1]⟩, [.granted 7, .granted 7, .sold 7 50, .learned 1,
          .trained (.integer 16), .refusedDup 1]) ∧
      Ledger shopping (exactReplay shopping).1 (exactReplay shopping).2 := by
  have fits : ∀ before, before <+: shopping → Fits (exactReplay before).1.credits := by
    have checked : ∀ n ≤ shopping.length, Fits (exactReplay (shopping.take n)).1.credits := by decide +kernel
    intro before front
    rw [List.prefix_iff_eq_take.mp front]
    exact checked _ front.length_le
  obtain ⟨⟨follows, -⟩, ledger, -⟩ := progressionReplay_ledger IntegralDouble shopping (by decide) fits
  exact ⟨follows.trans (by decide +kernel), ledger⟩

/-- A price takes the balance beyond 64 bits: the credits become a double, and it is not the sum. -/
theorem progressionReplay_overflow :
    (progressionReplay [.grant 1, .sell 1 9223372036854775807] : Profile (Number IntegralDouble) × _) =
      (⟨.real ⟨9223372036854775808⟩, .integer 15, [], []⟩, [.granted 1, .sold 1 9223372036854775807]) ∧
      (9223372036854775808 : Int) ≠ 200 + income [(.sold 1 9223372036854775807 : Output (Number IntegralDouble))] := by
  refine ⟨?_, ?_⟩ <;> decide +kernel

end Progression
end WeftWarp
