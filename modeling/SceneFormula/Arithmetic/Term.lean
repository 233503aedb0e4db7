import SceneFormula.Arithmetic.Builtin

namespace SceneFormula.Arithmetic

inductive Term where
  | number (value : Float)
  | var (index : Nat)
  | unary (op : Sign) (operand : Term)
  | binary (op : Operator) (left right : Term)
  | call (function : Builtin) (arguments : List Term)

namespace Term

mutual
/-- The value of a term whose variable `i` has the value `values[i]`, or zero without one. -/
def evaluate (values : List Float) : Term → Float
  | number value => value
  | var index => values[index]?.getD 0
  | unary op operand => op.apply (operand.evaluate values)
  | binary op left right => op.apply (left.evaluate values) (right.evaluate values)
  | call function arguments => function.apply (evaluateAll values arguments)

def evaluateAll (values : List Float) : List Term → List Float
  | [] => []
  | term :: rest => term.evaluate values :: evaluateAll values rest
end

def asNumber? : Term → Option Float
  | number value => some value
  | _ => none

def foldUnary (op : Sign) : Term → Term
  | number value => number (op.apply value)
  | operand => unary op operand

def foldBinary (op : Operator) : Term → Term → Term
  | number x, number y => number (op.apply x y)
  | left, right => binary op left right

def foldCall (function : Builtin) (arguments : List Term) : Term :=
  match arguments.mapM asNumber? with
  | some values => number (function.apply values)
  | none => call function arguments

mutual
def fold : Term → Term
  | number value => number value
  | var index => var index
  | unary op operand => foldUnary op operand.fold
  | binary op left right => foldBinary op left.fold right.fold
  | call function arguments => foldCall function (foldAll arguments)

def foldAll : List Term → List Term
  | [] => []
  | term :: rest => term.fold :: foldAll rest
end

theorem evaluateAll_eq_map (values : List Float) (terms : List Term) :
    evaluateAll values terms = terms.map (evaluate values) := by
  induction terms with
  | nil => rfl
  | cons term rest ih => rw [evaluateAll, ih, List.map_cons]

end Term
end SceneFormula.Arithmetic
