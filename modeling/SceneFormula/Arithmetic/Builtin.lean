import SceneFormula.Arithmetic.Operator

namespace SceneFormula.Arithmetic

inductive Builtin where
  | sin | cos | tan | asin | acos | atan | sinh | cosh | tanh
  | sqrt | exp | ln | log | log10 | log2
  | abs | sign | rint | int | ceil | floor
  | min | max | sum | avg | if
  deriving DecidableEq, Repr

namespace Builtin

def all : List Builtin :=
  [.sin, .cos, .tan, .asin, .acos, .atan, .sinh, .cosh, .tanh, .sqrt, .exp, .ln, .log, .log10,
    .log2, .abs, .sign, .rint, .int, .ceil, .floor, .min, .max, .sum, .avg, .if]

def name : Builtin → String
  | .sin => "sin" | .cos => "cos" | .tan => "tan" | .asin => "asin" | .acos => "acos"
  | .atan => "atan" | .sinh => "sinh" | .cosh => "cosh" | .tanh => "tanh" | .sqrt => "sqrt"
  | .exp => "exp" | .ln => "ln" | .log => "log" | .log10 => "log10" | .log2 => "log2"
  | .abs => "abs" | .sign => "sign" | .rint => "rint" | .int => "int" | .ceil => "ceil"
  | .floor => "floor" | .min => "min" | .max => "max" | .sum => "sum" | .avg => "avg"
  | .if => "if"

def ofName? (name : String) : Option Builtin :=
  all.find? (·.name == name)

def accepts : Builtin → Nat → Bool
  | .min, n | .max, n | .sum, n | .avg, n => 1 ≤ n
  | .if, n => n == 3
  | _, n => n == 1

private def lesser (x y : Float) : Float :=
  if x.isNaN then y else if y.isNaN then x else if y < x then y else x

private def greater (x y : Float) : Float :=
  if x.isNaN then y else if y.isNaN then x else if x < y then y else x

/-- The sum of floats from the left. The empty sum is `-0`, which changes no summand. -/
private def total (xs : List Float) : Float :=
  xs.foldl (· + ·) (-0.0)

/-- The value at the given arguments, a missing one counting as zero. Halves are rounded away from
zero, and `log` is the natural logarithm. -/
def apply (function : Builtin) (arguments : List Float) : Float :=
  let x := arguments[0]?.getD 0
  match function with
  | .sin => x.sin
  | .cos => x.cos
  | .tan => x.tan
  | .asin => x.asin
  | .acos => x.acos
  | .atan => x.atan
  | .sinh => x.sinh
  | .cosh => x.cosh
  | .tanh => x.tanh
  | .sqrt => x.sqrt
  | .exp => x.exp
  | .ln | .log => x.log
  | .log10 => x.log10
  | .log2 => x.log2
  | .abs => x.abs
  | .sign => if 0 < x then 1 else if x < 0 then -1 else 0
  | .rint => x.round
  | .int => if x < 0 then x.ceil else x.floor
  | .ceil => x.ceil
  | .floor => x.floor
  | .min => arguments.foldl lesser (1 / 0)
  | .max => arguments.foldl greater (-1 / 0)
  | .sum => total arguments
  | .avg => total arguments / (Nat.max arguments.length 1).toFloat
  | .if => (if isTrue x then arguments[1]? else arguments[2]?).getD 0

theorem ofName?_name (function : Builtin) : ofName? function.name = some function := by
  cases function <;> decide

end Builtin

def constant? (name : String) : Option Float :=
  if name = "pi" then some (.ofBits 0x400921FB54442D18)
  else if name = "e" then some (.ofBits 0x4005BF0A8B145769)
  else none

def isReserved (name : String) : Bool :=
  (Builtin.ofName? name).isSome || (constant? name).isSome

end SceneFormula.Arithmetic
