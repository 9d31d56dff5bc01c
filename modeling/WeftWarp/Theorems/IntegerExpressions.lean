import WeftWarp.Loader

/-! # Expressions over integers

The arithmetic nodes on integers return what unbounded integers give, without an overflow or a trap, exactly as long
as each of these results has 64 bits. -/

namespace WeftWarp
open TwLoader

/-! ## Operations -/

/-- The integer has 64 bits. -/
def InInt64 (x : Int) : Prop := -2 ^ 63 ≤ x ∧ x < 2 ^ 63

theorem toInt_inInt64 (i : Int64) : InInt64 i.toInt := ⟨i.le_toInt, i.toInt_lt⟩

theorem bmod_of_inInt64 {x : Int} (fits : InInt64 x) : x.bmod (2 ^ 64) = x := by
  unfold InInt64 at fits
  exact Int.bmod_eq_of_le (by omega) (by omega)

/-- Nodes with two operands. -/
inductive IntOp where
  | add | sub | mul | div | rem
  deriving DecidableEq

/-- Nodes with one operand. -/
inductive IntFn where
  | neg | abs
  deriving DecidableEq

namespace IntOp

/-- The type of the node. -/
def name : IntOp → String
  | add => "add"
  | sub => "sub"
  | mul => "mul"
  | div => "div"
  | rem => "rem"

/-- What the operations of the processor should give: a remainder is computed with its quotient. -/
def results (x y : Int) : IntOp → List Int
  | add => [x + y]
  | sub => [x - y]
  | mul => [x * y]
  | div => if y = 0 then [] else [x.tdiv y]
  | rem => if y = 0 then [] else [x.tdiv y, x.tmod y]

/-- The value over unbounded integers, with 0 for a remainder by 0 as in the source. -/
def value (x y : Int) : IntOp → Option Int
  | add => some (x + y)
  | sub => some (x - y)
  | mul => some (x * y)
  | div => if y = 0 then none else some (x.tdiv y)
  | rem => some (if y = 0 then 0 else x.tmod y)

/-- The value of truncating arithmetic, where neither quotient nor remainder is defined for a divisor 0. -/
def exact (x y : Int) (op : IntOp) : Option Int := if op = rem ∧ y = 0 then none else op.value x y

/-- The function of the node. -/
def node {F : Type} [CxxMath F] : IntOp → NodeFn F
  | add => addNode
  | sub => subNode
  | mul => mulNode
  | div => divNode
  | rem => remNode

end IntOp

namespace IntFn

/-- The type of the node. -/
def name : IntFn → String
  | neg => "neg"
  | abs => "abs"

/-- The exact result. -/
def value (x : Int) : IntFn → Int
  | neg => -x
  | abs => x.natAbs

/-- The function of the node. -/
def node {F : Type} [CxxMath F] : IntFn → NodeFn F
  | neg => negNode
  | abs => absNode

end IntFn

section Nodes
variable {F : Type} [CxxMath F]

/-- A value is an integer and has this value, or it is no integer. -/
def IntValued (v : TwValue F) (value : Option Int) : Prop :=
  match value with
  | some x => ∃ i, v = .int i ∧ i.toInt = x
  | none => v.isInt = false

omit [CxxMath F] in
theorem intValued_int {i : Int64} {x : Int} (wraps : i.toInt = x.bmod (2 ^ 64)) (fits : InInt64 x) :
    IntValued (.int i : TwValue F) (some x) :=
  ⟨i, rfl, wraps.trans (bmod_of_inInt64 fits)⟩

theorem toInt_ne_zero {i : Int64} : i ≠ 0 ↔ i.toInt ≠ 0 := by
  rw [ne_eq, ne_eq, ← Int64.toInt_inj]
  rfl

theorem intValued_op (op : IntOp) (x y : Int64) (c d : TwValue F)
    (fits : ∀ z ∈ op.results x.toInt y.toInt, InInt64 z) :
    IntValued (op.node (.int x) (.int y) c d) (op.value x.toInt y.toInt) := by
  cases op with
  | add => exact intValued_int (Int64.toInt_add x y) (fits _ List.mem_cons_self)
  | sub => exact intValued_int (Int64.toInt_sub x y) (fits _ List.mem_cons_self)
  | mul => exact intValued_int (Int64.toInt_mul x y) (fits _ List.mem_cons_self)
  | div =>
    by_cases zero : y = 0
    · subst zero
      rfl
    · have notZero := toInt_ne_zero.mp zero
      have node : IntOp.div.node (.int x) (.int y) c d = (.int (x / y) : TwValue F) := if_pos zero
      rw [IntOp.results, if_neg notZero] at fits
      rw [node, IntOp.value, if_neg notZero]
      exact intValued_int (Int64.toInt_div x y) (fits _ List.mem_cons_self)
  | rem =>
    by_cases zero : y = 0
    · subst zero
      exact ⟨0, rfl, rfl⟩
    · have notZero := toInt_ne_zero.mp zero
      have node : IntOp.rem.node (.int x) (.int y) c d = (.int (x % y) : TwValue F) := if_pos zero
      rw [node, IntOp.value, if_neg notZero]
      exact ⟨x % y, rfl, Int64.toInt_mod x y⟩

variable {a b : TwValue F}

theorem arith_float (notInt : ¬(a.isInt = true ∧ b.isInt = true)) (onInt : Int64 → Int64 → TwValue F)
    (onFloat : F → F → TwValue F) (c d : TwValue F) : arith onInt onFloat a b c d = onFloat a.asNumber b.asNumber :=
  if_neg fun both => notInt (Bool.and_eq_true_iff.mp both)

theorem op_notInt (op : IntOp) (c d : TwValue F) (notInt : ¬(a.isInt = true ∧ b.isInt = true)) :
    (op.node a b c d).isInt = false := by
  cases op with
  | add => rw [IntOp.node, addNode, arith_float notInt]; rfl
  | sub => rw [IntOp.node, subNode, arith_float notInt]; rfl
  | mul => rw [IntOp.node, mulNode, arith_float notInt]; rfl
  | div =>
    rw [IntOp.node, divNode, arith_float notInt]
    split <;> rfl
  | rem => rw [IntOp.node, remNode, arith_float notInt]; rfl

theorem toInt_abs (i : Int64) : i.abs.toInt = (i.toInt.natAbs : Int).bmod (2 ^ 64) := by
  have word : i.abs.toInt = i.toBitVec.abs.toInt := rfl
  have negative : i.toBitVec.msb = decide (i.toInt < 0) := BitVec.msb_eq_toInt
  rw [word, BitVec.abs_eq, negative]
  by_cases below : i.toInt < 0
  · have same : (i.toInt.natAbs : Int) = -i.toInt := by omega
    rw [if_pos (decide_eq_true below), BitVec.toInt_neg, same]
    rfl
  · have same : (i.toInt.natAbs : Int) = i.toInt := by omega
    rw [if_neg (by simpa using below), same, bmod_of_inInt64 (toInt_inInt64 i)]
    rfl

theorem intValued_fn (fn : IntFn) (x : Int64) (b c d : TwValue F) (fits : InInt64 (fn.value x.toInt)) :
    IntValued (fn.node (.int x) b c d) (some (fn.value x.toInt)) := by
  cases fn with
  | neg => exact intValued_int (Int64.toInt_neg x) fits
  | abs => exact intValued_int (toInt_abs x) fits

theorem fn_notInt (fn : IntFn) (b c d : TwValue F) (notInt : a.isInt = false) : (fn.node a b c d).isInt = false := by
  have float : ¬a.isInt = true := by simp [notInt]
  cases fn with
  | neg => exact congrArg TwValue.isInt (if_neg float)
  | abs => exact congrArg TwValue.isInt (if_neg float)

theorem intValued_node (op : IntOp) {valueA valueB : Option Int} (ofA : IntValued a valueA) (ofB : IntValued b valueB)
    (c d : TwValue F) (fits : ∀ x ∈ valueA, ∀ y ∈ valueB, ∀ z ∈ op.results x y, InInt64 z) :
    IntValued (op.node a b c d) (valueA.bind fun x => valueB.bind fun y => op.value x y) := by
  cases valueA with
  | none =>
    have float : a.isInt = false := ofA
    exact op_notInt op c d fun both => by simp [float] at both
  | some x =>
    cases valueB with
    | none =>
      have float : b.isInt = false := ofB
      exact op_notInt op c d fun both => by simp [float] at both
    | some y =>
      obtain ⟨i, rfl, rfl⟩ := ofA
      obtain ⟨j, rfl, rfl⟩ := ofB
      exact intValued_op op i j c d (fits _ rfl _ rfl)

theorem intValued_unaryNode (fn : IntFn) {valueA : Option Int} (ofA : IntValued a valueA) (b c d : TwValue F)
    (fits : ∀ x ∈ valueA, InInt64 (fn.value x)) : IntValued (fn.node a b c d) (valueA.map fn.value) := by
  cases valueA with
  | none => exact fn_notInt fn b c d ofA
  | some x =>
    obtain ⟨i, rfl, rfl⟩ := ofA
    exact intValued_fn fn i b c d (fits _ rfl)

end Nodes

/-! ## Expressions -/

/-- Trees of these nodes. -/
inductive IntExpr where
  | leaf (i : Int64)
  | binary (op : IntOp) (a b : IntExpr)
  | unary (fn : IntFn) (a : IntExpr)

namespace IntExpr

/-- The value over unbounded integers; none behind a division by 0. -/
def value : IntExpr → Option Int
  | leaf i => some i.toInt
  | binary op a b => a.value.bind fun x => b.value.bind fun y => op.value x y
  | unary fn a => a.value.map fn.value

/-- The value of truncating arithmetic; none behind a division or a remainder by 0. -/
def exact : IntExpr → Option Int
  | leaf i => some i.toInt
  | binary op a b => a.exact.bind fun x => b.exact.bind fun y => op.exact x y
  | unary fn a => a.exact.map fn.value

/-- Over unbounded integers each operation gives a number of 64 bits. -/
def Fits : IntExpr → Prop
  | leaf _ => True
  | binary op a b => a.Fits ∧ b.Fits ∧ ∀ x ∈ a.value, ∀ y ∈ b.value, ∀ z ∈ op.results x y, InInt64 z
  | unary fn a => a.Fits ∧ ∀ x ∈ a.value, InInt64 (fn.value x)

theorem value_of_exact {e : IntExpr} {x : Int} (isExact : e.exact = some x) : e.value = some x := by
  induction e generalizing x with
  | leaf i => exact isExact
  | binary op a b ihA ihB =>
    obtain ⟨y, ofA, isExact⟩ := Option.bind_eq_some_iff.mp isExact
    obtain ⟨z, ofB, isExact⟩ := Option.bind_eq_some_iff.mp isExact
    rw [IntOp.exact] at isExact
    split at isExact
    · cases isExact
    · rw [value, ihA ofA, ihB ofB]
      exact isExact
  | unary fn a ih =>
    obtain ⟨y, ofA, rfl⟩ := Option.map_eq_some_iff.mp isExact
    rw [value, ih ofA]
    rfl

end IntExpr

variable {F : Type} [CxxMath F] {params : Params F} {s : TwState F}

/-- A value that is an expression over integers: constants, parameters bound to integers, and arithmetic nodes. -/
inductive IntTree (params : Params F) : TwValue F → IntExpr → Prop
  | constant (i : Int64) : IntTree params (.int i) (.leaf i)
  | param {name : List Char} {i : Int64} : name ≠ [] → '\x7b' ∉ name → params.find? (String.ofList name) = some (.int i) →
    IntTree params (.string (String.ofList ('\x7b' :: name ++ ['\x7d']))) (.leaf i)
  | binary {kvs : Dict F} {op : IntOp} {va vb : TwValue F} {a b : IntExpr} :
    nodeType kvs = op.name → kvs.lookup "a" = some va → kvs.lookup "b" = some vb → kvs.lookup "c" = none →
    kvs.lookup "d" = none → IntTree params va a → IntTree params vb b → IntTree params (.dict kvs) (.binary op a b)
  | unary {kvs : Dict F} {fn : IntFn} {va : TwValue F} {a : IntExpr} :
    nodeType kvs = fn.name → kvs.lookup "a" = some va → kvs.lookup "b" = none → kvs.lookup "c" = none →
    kvs.lookup "d" = none → IntTree params va a → IntTree params (.dict kvs) (.unary fn a)

/-- To evaluate the value, an operation on two `int64_t` is done that should give this integer. -/
inductive Performs (params : Params F) (s : TwState F) : TwValue F → Int → Prop
  | input {kvs : Dict F} {key : String} {v : TwValue F} {z : Int} : key ∈ ["a", "b", "c", "d"] →
    kvs.lookup key = some v → Performs params s v z → Performs params s (.dict kvs) z
  | binary {kvs : Dict F} {op : IntOp} {va vb : TwValue F} {x y : Int64} {z : Int} :
    nodeType kvs = op.name → kvs.lookup "a" = some va → kvs.lookup "b" = some vb →
    evalExpr params s va = .int x → evalExpr params s vb = .int y → z ∈ op.results x.toInt y.toInt →
    Performs params s (.dict kvs) z
  | unary {kvs : Dict F} {fn : IntFn} {va : TwValue F} {x : Int64} : nodeType kvs = fn.name →
    kvs.lookup "a" = some va → evalExpr params s va = .int x → Performs params s (.dict kvs) (fn.value x.toInt)

theorem lookup_evalEntries (key : String) (kvs : Dict F) :
    (evalEntries params s kvs).lookup key = (kvs.lookup key).map (evalExpr params s) := by
  induction kvs with
  | nil => simp [evalEntries]
  | cons kv kvs ih =>
    obtain ⟨k, v⟩ := kv
    rw [evalEntries, List.lookup_cons, List.lookup_cons]
    split
    · rfl
    · exact ih

variable {kvs : Dict F} {v : TwValue F}

omit [CxxMath F] in
theorem isNode_of_type (isType : nodeType kvs ≠ "") : (kvs.lookup "type").isSome = true := by
  cases found : kvs.lookup "type" with
  | some v => rfl
  | none => exact absurd (by simp [nodeType, found, TwValue.asString]) isType

/-- The inputs of a node. -/
def input (params : Params F) (s : TwState F) (kvs : Dict F) (key : String) : TwValue F :=
  ((kvs.lookup key).map (evalExpr params s)).getD .nil

theorem input_of_lookup {key : String} (found : kvs.lookup key = some v) :
    input params s kvs key = evalExpr params s v := by
  rw [input, found]
  rfl

variable {op : IntOp} {fn : IntFn} {e : IntExpr} {z : Int}

theorem evalExpr_op (type : nodeType kvs = op.name) :
    evalExpr params s (.dict kvs) = op.node (input params s kvs "a") (input params s kvs "b") (input params s kvs "c")
      (input params s kvs "d") := by
  have isNode := isNode_of_type (by rw [type]; cases op <;> decide)
  rw [evalExpr, if_pos isNode]
  simp only [evalNode, type, lookup_evalEntries]
  cases op <;> simp [IntOp.name, kNodeTypes, List.lookup_cons, IntOp.node, input]

theorem evalExpr_fn (type : nodeType kvs = fn.name) :
    evalExpr params s (.dict kvs) = fn.node (input params s kvs "a") (input params s kvs "b") (input params s kvs "c")
      (input params s kvs "d") := by
  have isNode := isNode_of_type (by rw [type]; cases fn <;> decide)
  rw [evalExpr, if_pos isNode]
  simp only [evalNode, type, lookup_evalEntries]
  cases fn <;> simp [IntFn.name, kNodeTypes, List.lookup_cons, IntFn.node, input]

theorem evalExpr_param {name : List Char} {i : Int64} (nonempty : name ≠ []) (noOpen : '\x7b' ∉ name)
    (bound : params.find? (String.ofList name) = some (.int i)) :
    evalExpr params s (.string (String.ofList ('\x7b' :: name ++ ['\x7d']))) = .int i := by
  have placeholder : isPlaceholder ('\x7b' :: name ++ ['\x7d']) = true :=
    isPlaceholder_iff.mpr ⟨name, nonempty, noOpen, rfl⟩
  have inside : ('\x7b' :: name ++ ['\x7d']).tail.dropLast = name := by simp
  simp only [evalExpr, resolveParam, String.toList_ofList, placeholder, if_true, inside, bound]
  rfl

/-! ## Evaluation -/

theorem intValued_of_fits (tree : IntTree params v e) (fits : e.Fits) : IntValued (evalExpr params s v) e.value := by
  induction tree with
  | constant i => exact ⟨i, by simp [evalExpr, resolveParam], rfl⟩
  | @param name i nonempty noOpen bound => exact ⟨i, evalExpr_param nonempty noOpen bound, rfl⟩
  | @binary kvs op va vb a b type inA inB _ _ _ _ ihA ihB =>
    obtain ⟨fitsA, fitsB, within⟩ := fits
    rw [evalExpr_op type, input_of_lookup inA, input_of_lookup inB]
    exact intValued_node op (ihA fitsA) (ihB fitsB) _ _ within
  | @unary kvs fn va a type inA _ _ _ _ ih =>
    obtain ⟨fitsA, within⟩ := fits
    rw [evalExpr_fn type, input_of_lookup inA]
    exact intValued_unaryNode fn (ih fitsA) _ _ _ within

theorem opName_inj {op' : IntOp} (same : op.name = op'.name) : op = op' := by
  cases op <;> cases op' <;> first | rfl | exact absurd same (by decide)

theorem fnName_inj {fn' : IntFn} (same : fn.name = fn'.name) : fn = fn' := by
  cases fn <;> cases fn' <;> first | rfl | exact absurd same (by decide)

theorem opName_ne_fnName (op : IntOp) (fn : IntFn) : op.name ≠ fn.name := by
  cases op <;> cases fn <;> decide

theorem value_of_eval (tree : IntTree params v e) (fits : e.Fits) {i : Int64} (eval : evalExpr params s v = .int i) :
    e.value = some i.toInt := by
  have agrees := intValued_of_fits (s := s) tree fits
  rw [eval] at agrees
  cases value : e.value with
  | none =>
    rw [value] at agrees
    cases agrees
  | some x =>
    rw [value] at agrees
    obtain ⟨j, same, rfl⟩ := agrees
    cases same
    rfl

theorem eval_of_value (tree : IntTree params v e) (fits : e.Fits) {x : Int} (value : e.value = some x) :
    ∃ i, evalExpr params s v = .int i ∧ i.toInt = x := by
  have agrees := intValued_of_fits (s := s) tree fits
  rwa [value] at agrees

/-! ## Operations -/

omit [CxxMath F] in
theorem lookup_mem_inputs {key : String} (isKey : key ∈ ["a", "b", "c", "d"]) (found : kvs.lookup key = some v) :
    some v ∈ [kvs.lookup "a", kvs.lookup "b", kvs.lookup "c", kvs.lookup "d"] := by
  rw [← found]
  exact List.mem_map_of_mem (f := fun key => kvs.lookup key) isKey

/-- An operation for a binary node is one for its operands or its own. -/
theorem Performs.binary_cases {va vb : TwValue F} (performs : Performs params s (.dict kvs) z)
    (type : nodeType kvs = op.name) (inA : kvs.lookup "a" = some va) (inB : kvs.lookup "b" = some vb)
    (noC : kvs.lookup "c" = none) (noD : kvs.lookup "d" = none) :
    (Performs params s va z ∨ Performs params s vb z) ∨
      ∃ x y, evalExpr params s va = .int x ∧ evalExpr params s vb = .int y ∧ z ∈ op.results x.toInt y.toInt := by
  cases performs with
  | @input _ key v z isKey found performs =>
    have operand := lookup_mem_inputs isKey found
    rw [inA, inB, noC, noD] at operand
    rcases show v = va ∨ v = vb by simpa using operand with rfl | rfl
    · exact .inl (.inl performs)
    · exact .inl (.inr performs)
  | @binary _ op' va' vb' x y z type' inA' inB' evalA evalB isResult =>
    obtain rfl := opName_inj (type.symm.trans type')
    obtain rfl := Option.some.inj (inA.symm.trans inA')
    obtain rfl := Option.some.inj (inB.symm.trans inB')
    exact .inr ⟨x, y, evalA, evalB, isResult⟩
  | unary type' => exact absurd (type.symm.trans type') (opName_ne_fnName op _)

theorem Performs.unary_cases {va : TwValue F} (performs : Performs params s (.dict kvs) z)
    (type : nodeType kvs = fn.name) (inA : kvs.lookup "a" = some va) (noB : kvs.lookup "b" = none)
    (noC : kvs.lookup "c" = none) (noD : kvs.lookup "d" = none) :
    Performs params s va z ∨ ∃ x, evalExpr params s va = .int x ∧ z = fn.value x.toInt := by
  cases performs with
  | @input _ key v z isKey found performs =>
    have operand := lookup_mem_inputs isKey found
    rw [inA, noB, noC, noD] at operand
    obtain rfl : v = va := by simpa using operand
    exact .inl performs
  | binary type' => exact absurd (type'.symm.trans type) (opName_ne_fnName _ fn)
  | @unary _ fn' va' x type' inA' evalA =>
    obtain rfl := fnName_inj (type.symm.trans type')
    obtain rfl := Option.some.inj (inA.symm.trans inA')
    exact .inr ⟨x, evalA, rfl⟩

theorem performs_of_fits (tree : IntTree params v e) (fits : e.Fits) (performs : Performs params s v z) :
    InInt64 z := by
  induction tree generalizing z with
  | constant i => cases performs
  | param => cases performs
  | @binary kvs op va vb a b type inA inB noC noD treeA treeB ihA ihB =>
    obtain ⟨fitsA, fitsB, within⟩ := fits
    rcases performs.binary_cases type inA inB noC noD with (forA | forB) | ⟨x, y, evalA, evalB, isResult⟩
    · exact ihA fitsA forA
    · exact ihB fitsB forB
    · exact within _ (value_of_eval treeA fitsA evalA) _ (value_of_eval treeB fitsB evalB) z isResult
  | @unary kvs fn va a type inA noB noC noD treeA ih =>
    obtain ⟨fitsA, within⟩ := fits
    rcases performs.unary_cases type inA noB noC noD with forA | ⟨x, evalA, rfl⟩
    · exact ih fitsA forA
    · exact within _ (value_of_eval treeA fitsA evalA)

theorem fits_of_performs (tree : IntTree params v e) (within : ∀ z, Performs params s v z → InInt64 z) : e.Fits := by
  induction tree with
  | constant => trivial
  | param => trivial
  | @binary kvs op va vb a b type inA inB _ _ treeA treeB ihA ihB =>
    have fitsA := ihA fun z performs => within z (.input (by simp) inA performs)
    have fitsB := ihB fun z performs => within z (.input (by simp) inB performs)
    refine ⟨fitsA, fitsB, fun x valueA y valueB z isResult => ?_⟩
    obtain ⟨i, evalA, rfl⟩ := eval_of_value (s := s) treeA fitsA valueA
    obtain ⟨j, evalB, rfl⟩ := eval_of_value (s := s) treeB fitsB valueB
    exact within z (.binary type inA inB evalA evalB isResult)
  | @unary kvs fn va a type inA _ _ _ treeA ih =>
    have fitsA := ih fun z performs => within z (.input (by simp) inA performs)
    refine ⟨fitsA, fun x valueA => ?_⟩
    obtain ⟨i, evalA, rfl⟩ := eval_of_value (s := s) treeA fitsA valueA
    exact within _ (.unary type inA evalA)

/-- No operation leaves the 64 bits, and an integer that is returned is the exact value, exactly if over unbounded
    integers each operation fits and no remainder by 0 stands in an expression without a division by 0. -/
theorem evalExpr_exact_iff (params : Params F) (s : TwState F) (v : TwValue F) (e : IntExpr) (tree : IntTree params v e) :
    ((∀ z, Performs params s v z → InInt64 z) ∧ ∀ i, evalExpr params s v = .int i → e.exact = some i.toInt) ↔
      e.Fits ∧ e.value = e.exact := by
  constructor
  · rintro ⟨within, exact⟩
    have fits := fits_of_performs tree within
    refine ⟨fits, ?_⟩
    cases value : e.value with
    | some x =>
      obtain ⟨i, eval, rfl⟩ := eval_of_value (s := s) tree fits value
      exact (exact i eval).symm
    | none =>
      cases isExact : e.exact with
      | none => rfl
      | some x =>
        rw [IntExpr.value_of_exact isExact] at value
        cases value
  · rintro ⟨fits, same⟩
    refine ⟨fun z => performs_of_fits tree fits, fun i eval => ?_⟩
    rw [← same]
    exact value_of_eval tree fits eval

/-- `math/<op>` of two values -/
def opValue (op : String) (a b : TwValue Int) : TwValue Int := .dict [("type", .string ("math/" ++ op)), ("a", a), ("b", b)]

theorem nodeType_opValue (op : IntOp) (a b : TwValue Int) :
    nodeType [("type", .string ("math/" ++ op.name)), ("a", a), ("b", b)] = op.name := by
  have type : nodeType [("type", .string ("math/" ++ op.name)), ("a", a), ("b", b)] =
      String.ofList (("math/" ++ op.name).toList.reverse.takeWhile (· ≠ '/')).reverse := rfl
  rw [type]
  cases op <;> decide +kernel

/-- -7 divided by the difference of 5 and 3. -/
def quotientValue : TwValue Int := opValue "div" (.int (-7)) (opValue "sub" (.int 5) (.int 3))

theorem evalExpr_exact_quotient :
    (∀ z, Performs .empty (.empty : TwState Int) quotientValue z → InInt64 z) ∧
      evalExpr .empty (.empty : TwState Int) quotientValue = .int (-3) := by
  have difference : IntTree .empty (opValue "sub" (.int 5) (.int 3)) (.binary .sub (.leaf 5) (.leaf 3)) :=
    .binary (nodeType_opValue .sub _ _) rfl rfl rfl rfl (.constant 5) (.constant 3)
  have tree : IntTree .empty quotientValue (.binary .div (.leaf (-7)) (.binary .sub (.leaf 5) (.leaf 3))) :=
    .binary (nodeType_opValue .div _ _) rfl rfl rfl rfl (.constant (-7)) difference
  have fits : (IntExpr.binary .div (.leaf (-7)) (.binary .sub (.leaf 5) (.leaf 3))).Fits := by
    simp [IntExpr.Fits, IntExpr.value, IntOp.results, IntOp.value, InInt64]
  exact ⟨((evalExpr_exact_iff .empty .empty _ _ tree).mpr ⟨fits, rfl⟩).1, by decide +kernel⟩

/-- One more than the largest integer is the smallest one, as the sum wraps around, and the quotient of the smallest
    integer by -1 is one that the processor cannot give. -/
theorem evalExpr_overflows :
    (Performs .empty (.empty : TwState Int) (opValue "add" (.int Int64.maxValue) (.int 1)) (2 ^ 63) ∧
      evalExpr .empty (.empty : TwState Int) (opValue "add" (.int Int64.maxValue) (.int 1)) = .int Int64.minValue) ∧
    Performs .empty (.empty : TwState Int) (opValue "div" (.int Int64.minValue) (.int (-1))) (2 ^ 63) ∧
    ¬InInt64 (2 ^ 63) := by
  refine ⟨⟨.binary (nodeType_opValue .add _ _) rfl rfl rfl rfl (by decide +kernel), by decide +kernel⟩,
    .binary (nodeType_opValue .div _ _) rfl rfl rfl rfl (by decide +kernel), fun within => ?_⟩
  exact absurd within.2 (by decide)

end WeftWarp
