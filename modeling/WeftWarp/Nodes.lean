import Mathlib.Algebra.Group.Int.Defs
import WeftWarp.Value

/-! # Expression nodes

The table `kNodeTypes` of `tw_loader.hpp`: the scalar, vector, quaternion and matrix nodes that an expression may
use. C++ leaves the overflow of an `int64_t` open; here it wraps around. -/

namespace WeftWarp

/-- What `<cmath>` and the casts of `double` supply on top of `Cxx`. -/
class CxxMath (F : Type) extends Cxx F, Add F, Sub F, Mul F, Div F, Neg F, OfScientific F where
  /-- `(int64_t)double` -/
  toInt64 : F → Int64
  isInf : F → Bool
  fabs : F → F
  fmod : F → F → F
  pow : F → F → F
  floor : F → F
  ceil : F → F
  trunc : F → F
  round : F → F
  sqrt : F → F
  cbrt : F → F
  exp : F → F
  log : F → F
  log2 : F → F
  log10 : F → F
  sin : F → F
  cos : F → F
  tan : F → F
  asin : F → F
  acos : F → F
  atan : F → F
  atan2 : F → F → F
  sinh : F → F
  cosh : F → F
  tanh : F → F
  asinh : F → F
  acosh : F → F
  atanh : F → F
  /-- `M_E` -/
  e : F
  /-- `M_PI` -/
  pi : F
  infinity : F
  quietNaN : F
  /-- What a `math/random` node draws. It is one value here: documents with such nodes are left out. -/
  random : F

namespace TwLoader
variable {F : Type} [CxxMath F]

open CxxMath

abbrev NodeFn (F : Type) := TwValue F → TwValue F → TwValue F → TwValue F → TwValue F

/-! ### Doubles -/

def fmin (a b : F) : F := if Cxx.lt b a then b else a

def fclamp (v lo hi : F) : F := if Cxx.lt v lo then lo else if Cxx.lt hi v then hi else v

/-- `v < 0.0 ? 0.0 : v > 1.0 ? 1.0 : v` -/
def saturate (v : F) : F := if Cxx.lt v 0.0 then 0.0 else if Cxx.lt 1.0 v then 1.0 else v

def unary (f : F → F) : NodeFn F := fun a _ _ _ => .float (f a.asNumber)

def binary (f : F → F → F) : NodeFn F := fun a b _ _ => .float (f a.asNumber b.asNumber)

def constant (v : F) : NodeFn F := fun _ _ _ _ => .float v

def compare (f : TwValue F → TwValue F → Bool) : NodeFn F := fun a b _ _ => .bool (f a b)

/-- A node that works on two integers or else on two `double`s. -/
def arith (onInt : Int64 → Int64 → TwValue F) (onFloat : F → F → TwValue F) : NodeFn F := fun a b _ _ =>
  if a.isInt && b.isInt then onInt a.asInt b.asInt else onFloat a.asNumber b.asNumber

/-! ### Arithmetic -/

def addNode : NodeFn F := arith (fun a b => .int (a + b)) fun a b => .float (a + b)

def subNode : NodeFn F := arith (fun a b => .int (a - b)) fun a b => .float (a - b)

def mulNode : NodeFn F := arith (fun a b => .int (a * b)) fun a b => .float (a * b)

/-- The smallest integer by `-1`, which has no defined quotient in C++, wraps here; so it does in `remNode`. -/
def divNode : NodeFn F :=
  arith (fun a b => if b ≠ 0 then .int (a / b) else .nil) fun a b => if Cxx.eq b 0.0 then .nil else .float (a / b)

def remNode : NodeFn F :=
  arith (fun a b => if b ≠ 0 then .int (a % b) else .int 0) fun a b =>
    .float (if Cxx.eq b 0.0 then 0.0 else fmod a b)

def negNode : NodeFn F := fun a _ _ _ => if a.isInt then .int (-a.asInt) else .float (-a.asNumber)

def absNode : NodeFn F := fun a _ _ _ => if a.isInt then .int a.asInt.abs else .float (fabs a.asNumber)

def smoothStep : NodeFn F := fun a b c _ =>
  let t := saturate ((c.asNumber - fmin a.asNumber b.asNumber) / fabs (b.asNumber - a.asNumber))
  .float (t * t * (3.0 - 2.0 * t))

def signNode : NodeFn F := fun a _ _ _ =>
  if a.isInt then .int (if 0 < a.asInt then 1 else if a.asInt < 0 then -1 else 0)
  else .float (if Cxx.lt 0.0 a.asNumber then 1.0 else if Cxx.lt a.asNumber 0.0 then -1.0 else 0.0)

/-- Halfway cases round away from zero on both sides. -/
def roundNode (v : F) : F := if Cxx.lt v 0.0 then -round (-v) else round v

/-! ### Booleans and bits -/

/-- Bitwise on an integer. -/
def notNode : NodeFn F := fun a _ _ _ =>
  if a.isInt then .int (~~~a.asInt.toInt32).toInt64 else .bool (!a.asBool)

def xorNode : NodeFn F := fun a b _ _ =>
  if a.isInt && b.isInt then .int (a.asInt.toInt32 ^^^ b.asInt.toInt32).toInt64 else .bool (a.asBool != b.asBool)

/-- `(uint32_t)a.as_int()` -/
def word (a : TwValue F) : UInt32 := a.asInt.toUInt64.toUInt32

def asrNode : NodeFn F := fun a b _ _ => .int (a.asInt.toInt32 >>> (b.asInt &&& 31).toInt32).toInt64

def lslNode : NodeFn F := fun a b _ _ => .int (word a <<< (b.asInt &&& 31).toUInt64.toUInt32).toInt32.toInt64

def countBits (f : BitVec 32 → BitVec 32) : NodeFn F := fun a _ _ _ => .int (Int64.ofNat (f (word a).toBitVec).toNat)

/-! ### Vectors and quaternions -/

def isVec (n : Nat) (a : TwValue F) : Bool := a.isArray && n ≤ a.asArray.length

/-- `a.as_array()[i].as_number()` -/
def comp (a : TwValue F) (i : Nat) : F := (a.asArray[i]?.getD .nil).asNumber

def floats (vs : List F) : TwValue F := .array (vs.map .float)

/-- The sum that a loop adds up from 0.0. -/
def sum (vs : List F) : F := vs.foldl (· + ·) 0.0

/-- The value of component `b`; the same node for every size of vector and matrix. -/
def extract : NodeFn F := fun a b _ _ => if a.isArray then a.asArray[b.asInt.toUInt64.toNat]?.getD .nil else .nil

def combine2 : NodeFn F := fun a b _ _ => .array [a, b]

def combine3 : NodeFn F := fun a b c _ => .array [a, b, c]

def combine4 : NodeFn F := fun a b c d => .array [a, b, c, d]

def rotate2D : NodeFn F := fun a angle _ _ =>
  if isVec 2 a then
    let s := sin angle.asNumber
    let cc := cos angle.asNumber
    floats [comp a 0 * cc - comp a 1 * s, comp a 0 * s + comp a 1 * cc]
  else .nil

def lengthNode : NodeFn F := fun a _ _ _ =>
  if a.isArray then .float (sqrt (sum (a.asArray.map fun c => c.asNumber * c.asNumber)))
  else .float (fabs a.asNumber)

def dotNode : NodeFn F := fun a b _ _ =>
  if a.isArray && b.isArray then .float (sum (List.zipWith (fun x y => x.asNumber * y.asNumber) a.asArray b.asArray))
  else .float (a.asNumber * b.asNumber)

def normalize : NodeFn F := fun a _ _ _ =>
  if a.isArray then
    let len := sqrt (sum (a.asArray.map fun c => c.asNumber * c.asNumber))
    if Cxx.eq len 0.0 || Cxx.isNaN len || isInf len then floats (a.asArray.map fun _ => 0.0)
    else floats (a.asArray.map fun c => c.asNumber / len)
  else .float 1.0

def cross : NodeFn F := fun a b _ _ =>
  if isVec 3 a && isVec 3 b then
    floats [comp a 1 * comp b 2 - comp a 2 * comp b 1, comp a 2 * comp b 0 - comp a 0 * comp b 2,
      comp a 0 * comp b 1 - comp a 1 * comp b 0]
  else .nil

/-- The Hamilton product of two quaternions with the real part last. -/
def hamilton (ax ay az aw bx by' bz bw : F) : List F :=
  [aw * bx + ax * bw + ay * bz - az * by', aw * by' + ay * bw + az * bx - ax * bz,
    aw * bz + az * bw + ax * by' - ay * bx, aw * bw - ax * bx - ay * by' - az * bz]

def quatMul : NodeFn F := fun a b _ _ =>
  if isVec 4 a && isVec 4 b then
    floats (hamilton (comp a 0) (comp a 1) (comp a 2) (comp a 3) (comp b 0) (comp b 1) (comp b 2) (comp b 3))
  else .nil

def quatConjugate : NodeFn F := fun a _ _ _ =>
  if isVec 4 a then
    .array [.float (-comp a 0), .float (-comp a 1), .float (-comp a 2), a.asArray[3]?.getD .nil]
  else .nil

def quatAngleBetween : NodeFn F := fun a b _ _ =>
  if isVec 4 a && isVec 4 b then
    .float (2.0 * acos (fclamp (sum ((List.range 4).map fun i => comp a i * comp b i)) (-1.0) 1.0))
  else .nil

def quatFromAxisAngle : NodeFn F := fun axis angle _ _ =>
  if isVec 3 axis then
    let s := sin (0.5 * angle.asNumber)
    floats [comp axis 0 * s, comp axis 1 * s, comp axis 2 * s, cos (0.5 * angle.asNumber)]
  else .nil

def quatSlerp : NodeFn F := fun a b c _ =>
  if isVec 4 a && isVec 4 b then
    let t := c.asNumber
    let d := comp a 0 * comp b 0 + comp a 1 * comp b 1 + comp a 2 * comp b 2 + comp a 3 * comp b 3
    let flip := Cxx.lt d 0.0
    let d := if flip then -d else d
    let far := fun i => if flip then -comp b i else comp b i
    let (ka, kb) :=
      if Cxx.lt 0.9995 d then (1.0 - t, t)
      else
        let om := acos d
        let so := sin om
        (sin ((1.0 - t) * om) / so, sin (t * om) / so)
    floats ((List.range 4).map fun i => comp a i * ka + far i * kb)
  else .nil

/-- The rotation of a vector by a quaternion with the real part last. -/
def rotated (ax ay az rx ry rz rw : F) : List F :=
  let tx := ry * az - rz * ay
  let ty := rz * ax - rx * az
  let tz := rx * ay - ry * ax
  let ux := ry * tz - rz * ty
  let uy := rz * tx - rx * tz
  let uz := rx * ty - ry * tx
  [ax + 2.0 * (ux + rw * tx), ay + 2.0 * (uy + rw * ty), az + 2.0 * (uz + rw * tz)]

def rotate3D : NodeFn F := fun a rot _ _ =>
  if isVec 3 a && isVec 4 rot then
    floats (rotated (comp a 0) (comp a 1) (comp a 2) (comp rot 0) (comp rot 1) (comp rot 2) (comp rot 3))
  else .nil

def kEps : F := 1e-8

/-- The unit axis about which `slerp` turns one unit vector into the other. -/
def slerpAxis (ah bh : List F) (d : F) : List F :=
  let at' := fun (v : List F) i => v[i]?.getD 0.0
  let r :=
    if Cxx.lt d (-1.0 + kEps) then
      -- Opposite vectors: any vector perpendicular to the first will do.
      let r := if Cxx.lt (fabs (at' ah 0)) 0.9 then [1.0, 0.0, 0.0] else [0.0, 1.0, 0.0]
      let dp := at' r 0 * at' ah 0 + at' r 1 * at' ah 1 + at' r 2 * at' ah 2
      [at' r 0 - dp * at' ah 0, at' r 1 - dp * at' ah 1, at' r 2 - dp * at' ah 2]
    else [at' ah 1 * at' bh 2 - at' ah 2 * at' bh 1, at' ah 2 * at' bh 0 - at' ah 0 * at' bh 2,
      at' ah 0 * at' bh 1 - at' ah 1 * at' bh 0]
  let rl := sqrt (at' r 0 * at' r 0 + at' r 1 * at' r 1 + at' r 2 * at' r 2)
  r.map (· / rl)

def slerp : NodeFn F := fun a b c _ =>
  let av := a.asArray
  let bv := b.asArray
  if !(a.isArray && b.isArray) then .nil
  else if av.length ≠ bv.length ∨ (av.length ≠ 2 ∧ av.length ≠ 3) then .nil
  else
    let t := c.asNumber
    let lerpOut := floats (List.zipWith (fun x y => (1.0 - t) * x.asNumber + t * y.asNumber) av bv)
    let la := sqrt (sum (av.map fun x => x.asNumber * x.asNumber))
    let lb := sqrt (sum (bv.map fun x => x.asNumber * x.asNumber))
    if Cxx.lt la kEps || Cxx.lt lb kEps then lerpOut
    else
      let ah := av.map (·.asNumber / la)
      let bh := bv.map (·.asNumber / lb)
      let at' := fun (v : List F) i => v[i]?.getD 0.0
      let d := fclamp (sum (List.zipWith (· * ·) ah bh)) (-1.0) 1.0
      let l := (1.0 - t) * la + t * lb
      if av.length = 2 then
        let theta := acos d
        let theta := if Cxx.lt (at' ah 0 * at' bh 1 - at' ah 1 * at' bh 0) 0.0 then -theta else theta
        let s := sin (t * theta)
        let cc := cos (t * theta)
        floats [(at' ah 0 * cc - at' ah 1 * s) * l, (at' ah 0 * s + at' ah 1 * cc) * l]
      else if Cxx.lt (1.0 - kEps) d then lerpOut
      else
        let r := slerpAxis ah bh d
        let ang := t * acos d
        let qs := sin (0.5 * ang)
        let qw := cos (0.5 * ang)
        floats ((rotated (at' ah 0) (at' ah 1) (at' ah 2) (at' r 0 * qs) (at' r 1 * qs) (at' r 2 * qs) qw).map (· * l))

/-! ### Matrices

A matrix is the flat list of its rows. -/

def matToDoubles (m : TwValue F) : List F := m.asArray.map TwValue.asNumber

/-- `mat_dim`: the dimension of a flat list, 0 if it is no matrix. -/
def matDim (n : Nat) : Nat := if n = 4 then 2 else if n = 9 then 3 else if n = 16 then 4 else 0

/-- `m[i * n + j]` -/
def entry (m : List F) (n i j : Nat) : F := m[i * n + j]?.getD 0.0

/-- The flat list of the entries `f i j`. -/
def rows (n : Nat) (f : Nat → Nat → F) : List F := (List.range n).flatMap fun i => (List.range n).map (f i)

def matMinor (m : List F) (n r c : Nat) : List F :=
  ((List.range n).filter (· ≠ r)).flatMap fun i => ((List.range n).filter (· ≠ c)).map (entry m n i)

/-- `(k % 2 == 0) ? 1.0 : -1.0` -/
def alternating (k : Nat) : F := if k % 2 = 0 then 1.0 else -1.0

/-- `mat_det`, by expansion along the first row. -/
def matDet : Nat → List F → F
  | 0, _ => 0.0
  | 1, m => m[0]?.getD 0.0
  | 2, m => m[0]?.getD 0.0 * m[3]?.getD 0.0 - m[1]?.getD 0.0 * m[2]?.getD 0.0
  | n + 3, m =>
    sum ((List.range (n + 3)).map fun j =>
      alternating j * m[j]?.getD 0.0 * matDet (n + 2) (matMinor m (n + 3) 0 j))

def matTransposeV (m : List F) (n : Nat) : List F := rows n fun i j => entry m n j i

def matMulV (a b : List F) (n : Nat) : List F :=
  rows n fun i j => sum ((List.range n).map fun k => entry a n i k * entry b n k j)

def matInverseV (m : List F) (n : Nat) : Bool × List F :=
  let det := matDet n m
  if Cxx.eq det 0.0 || Cxx.isNaN det || isInf det then (false, List.replicate (n * n) 0.0)
  else
    let cof := rows n fun i j => alternating (i + j) * matDet (n - 1) (matMinor m n i j)
    (true, (matTransposeV cof n).map (· / det))

def transform : NodeFn F := fun a b _ _ =>
  if a.isArray && b.isArray then
    let m := matToDoubles b
    let n := matDim m.length
    if n = 0 ∨ n ≠ a.asArray.length then .nil
    else floats ((List.range n).map fun i => sum ((List.range n).map fun j => entry m n i j * comp a j))
  else .nil

def matrixNode (f : List F → Nat → TwValue F → TwValue F) : NodeFn F := fun a b _ _ =>
  if a.isArray then
    let m := matToDoubles a
    let n := matDim m.length
    if n = 0 then .nil else f m n b
  else .nil

def transpose : NodeFn F := matrixNode fun m n _ => floats (matTransposeV m n)

def determinant : NodeFn F := matrixNode fun m n _ => .float (matDet n m)

/-- The second input selects the matrix or whether there is one. -/
def inverse : NodeFn F := matrixNode fun m n b =>
  let (ok, inv) := matInverseV m n
  if b.asInt = 1 then .bool ok else floats inv

def matMul : NodeFn F := fun a b _ _ =>
  if a.isArray && b.isArray then
    let ma := matToDoubles a
    let mb := matToDoubles b
    let n := matDim ma.length
    if n = 0 ∨ mb.length ≠ ma.length then .nil else floats (matMulV ma mb n)
  else .nil

def matCompose : NodeFn F := fun a b c _ =>
  if isVec 3 a && isVec 4 b && isVec 3 c then
    let rx := comp b 0
    let ry := comp b 1
    let rz := comp b 2
    let rw' := comp b 3
    let sx := comp c 0
    let sy := comp c 1
    let sz := comp c 2
    floats [
      sx * (1.0 - 2.0 * (ry * ry + rz * rz)), sy * 2.0 * (rx * ry - rz * rw'), sz * 2.0 * (rx * rz + ry * rw'), comp a 0,
      sx * 2.0 * (rx * ry + rz * rw'), sy * (1.0 - 2.0 * (rx * rx + rz * rz)), sz * 2.0 * (ry * rz - rx * rw'), comp a 1,
      sx * 2.0 * (rx * rz - ry * rw'), sy * 2.0 * (ry * rz + rx * rw'), sz * (1.0 - 2.0 * (rx * rx + ry * ry)), comp a 2,
      0.0, 0.0, 0.0, 1.0]
  else .nil

/-! ### The table -/

def kNodeTypes : List (String × NodeFn F) := [
  ("add", addNode), ("sub", subNode), ("mul", mulNode), ("div", divNode), ("rem", remNode),
  ("fract", unary fun v => v - floor v), ("neg", negNode), ("abs", absNode),
  ("min", fun a b _ _ => if a.lt b then a else b), ("max", fun a b _ _ => if b.lt a then a else b),
  ("saturate", unary saturate), ("smoothStep", smoothStep),
  ("sign", signNode), ("trunc", fun a _ _ _ => if a.isInt then a else .float (trunc a.asNumber)),
  ("floor", unary floor), ("ceil", unary ceil), ("round", unary roundNode),
  ("sqrt", unary sqrt), ("cbrt", unary cbrt), ("exp", unary exp), ("log", unary log), ("log2", unary log2),
  ("log10", unary log10), ("pow", binary pow),
  ("eq", compare TwValue.eq), ("neq", compare fun a b => !a.eq b), ("lt", compare TwValue.lt),
  ("le", compare TwValue.le), ("gt", compare fun a b => b.lt a), ("ge", compare fun a b => !a.lt b),
  ("and", compare fun a b => a.asBool && b.asBool), ("or", compare fun a b => a.asBool || b.asBool),
  ("not", notNode), ("xor", xorNode),
  ("isNaN", fun a _ _ _ => .bool (Cxx.isNaN a.asNumber)), ("isInf", fun a _ _ _ => .bool (isInf a.asNumber)),
  ("sin", unary sin), ("cos", unary cos), ("tan", unary tan), ("asin", unary asin), ("acos", unary acos),
  ("atan", unary atan), ("atan2", binary atan2), ("sinh", unary sinh), ("cosh", unary cosh), ("tanh", unary tanh),
  ("asinh", unary asinh), ("acosh", unary acosh), ("atanh", unary atanh),
  ("deg", unary fun v => v * (180.0 / pi)), ("rad", unary fun v => v * (pi / 180.0)),
  ("E", constant e), ("Pi", constant pi), ("Tau", constant (2.0 * pi)), ("Inf", constant infinity),
  ("NaN", constant quietNaN),
  ("asr", asrNode), ("lsl", lslNode), ("clz", countBits BitVec.clz), ("ctz", countBits BitVec.ctz),
  ("popcnt", countBits BitVec.cpop),
  ("boolToInt", fun a _ _ _ => .int (if a.asBool then 1 else 0)),
  ("boolToFloat", fun a _ _ _ => .float (if a.asBool then 1.0 else 0.0)),
  ("intToBool", fun a _ _ _ => .bool (a.asInt != 0)), ("intToFloat", unary id),
  ("floatToInt", fun a _ _ _ => .int (toInt64 a.asNumber)),
  ("floatToBool", fun a _ _ _ => .bool (!Cxx.eq a.asNumber 0.0)),
  ("combine2", combine2), ("combine3", combine3), ("combine4", combine4),
  ("extract2", extract), ("extract3", extract), ("extract4", extract),
  ("extract2x2", extract), ("extract3x3", extract), ("extract4x4", extract),
  ("combine2x2", combine4), ("rotate2D", rotate2D),
  ("length", lengthNode), ("dot", dotNode), ("normalize", normalize), ("cross", cross),
  ("quatMul", quatMul), ("quatConjugate", quatConjugate), ("quatAngleBetween", quatAngleBetween),
  ("quatFromAxisAngle", quatFromAxisAngle), ("quatSlerp", quatSlerp),
  ("rotate3D", rotate3D), ("transform", transform), ("slerp", slerp), ("transpose", transpose),
  ("determinant", determinant), ("inverse", inverse), ("matMul", matMul), ("matCompose", matCompose)]

end TwLoader

/-- Integers once more in the place of doubles. The functions without integer values are constant. -/
instance : CxxMath Int where
  toInt64 := Int64.ofInt
  isInf _ := false
  fabs a := a.natAbs
  fmod := Int.tmod
  pow a b := a ^ b.toNat
  floor := id
  ceil := id
  trunc := id
  round := id
  ofScientific m s e := if s then m / 10 ^ e else m * 10 ^ e
  sqrt a := a.toNat.sqrt
  cbrt _ := 0
  exp _ := 0
  log _ := 0
  log2 _ := 0
  log10 _ := 0
  sin _ := 0
  cos _ := 0
  tan _ := 0
  asin _ := 0
  acos _ := 0
  atan _ := 0
  atan2 _ _ := 0
  sinh _ := 0
  cosh _ := 0
  tanh _ := 0
  asinh _ := 0
  acosh _ := 0
  atanh _ := 0
  e := 2
  pi := 3
  infinity := 0
  quietNaN := 0
  random := 0

end WeftWarp
