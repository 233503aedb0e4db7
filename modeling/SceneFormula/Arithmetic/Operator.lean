import SceneFormula.Arithmetic.Remainder

/-! Signs and operators of arithmetic on floats. Zero is false and all else, NaN included, is true;
a truth value is told as 1 or 0. -/
namespace SceneFormula.Arithmetic

inductive Sign where
  | negate | not
  deriving DecidableEq, Repr

inductive Operator where
  | add | subtract | multiply | divide | modulo | power
  | equal | notEqual | less | lessOrEqual | greater | greaterOrEqual
  | and | or
  deriving DecidableEq, Repr

def isTrue (x : Float) : Bool :=
  x != 0

def ofTruth (b : Bool) : Float :=
  if b then 1 else 0

namespace Sign

def apply : Sign → Float → Float
  | negate, x => -x
  | not, x => ofTruth (!isTrue x)

end Sign

namespace Operator

def apply : Operator → Float → Float → Float
  | add, x, y => x + y
  | subtract, x, y => x - y
  | multiply, x, y => x * y
  | divide, x, y => x / y
  | modulo, x, y => remainder x y
  | power, x, y => x.pow y
  | equal, x, y => ofTruth (x == y)
  | notEqual, x, y => ofTruth (x != y)
  | less, x, y => ofTruth (x < y)
  | lessOrEqual, x, y => ofTruth (x ≤ y)
  | greater, x, y => ofTruth (y < x)
  | greaterOrEqual, x, y => ofTruth (y ≤ x)
  | and, x, y => ofTruth (isTrue x && isTrue y)
  | or, x, y => ofTruth (isTrue x || isTrue y)

end Operator
end SceneFormula.Arithmetic
