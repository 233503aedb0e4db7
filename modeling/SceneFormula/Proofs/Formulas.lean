import SceneFormula.Formula.Compile
import SceneFormula.Proofs.Combining
import SceneFormula.Proofs.Pieces
import SceneFormula.Proofs.Writable

/-! Formulas as trees, how they are written, and what they are worth. A call is a leaf of the
arithmetic around it, and its arguments are formulas and texts of their own. -/
namespace SceneFormula
open Arithmetic (Builtin Operator Sign Term decimalValue isReserved)
open Source (parenthesized)

inductive Constant where
  | pi | e
  deriving DecidableEq, Repr

namespace Constant

def name : Constant → String
  | pi => "pi"
  | e => "e"

def value : Constant → Float
  | pi => .ofBits 0x400921FB54442D18
  | e => .ofBits 0x4005BF0A8B145769

theorem constant?_name (constant : Constant) :
    Arithmetic.constant? constant.name = some constant.value := by
  cases constant <;> rfl

end Constant

/-- What is called: a free function, one of an object, or one of a component of an object. -/
inductive Callable where
  | free (name : String)
  | object (owner name : String)
  | component (owner part name : String)
  deriving DecidableEq, Repr

namespace Callable

def encodeSpaces (name : List Char) : List Char :=
  name.map fun c => if c = ' ' then '~' else c

def spelling : Callable → List Char
  | free name => name.toList
  | object owner name => encodeSpaces owner.toList ++ '.' :: name.toList
  | component owner part name =>
    encodeSpaces owner.toList ++ '.' :: (part ++ "::" ++ name).toList

def target? (world : World) : Callable → Option Target
  | free name => world.freeTarget? .number name
  | object owner name => world.objectTarget? .number owner name
  | component owner part name => world.componentTarget? .number owner (part ++ "::" ++ name)

def owner? : Callable → Option String
  | free _ => none
  | object owner _ | component owner _ _ => some owner

def function : Callable → String
  | free name | object _ name => name
  | component _ part name => part ++ "::" ++ name

def ownName? : Callable → Option String
  | free name | object _ name => some name
  | component .. => none

end Callable

mutual
/-- A formula: the digits of a number before and behind its point, a constant, an operation, or a
call of a builtin or of another function. -/
inductive Formula where
  | decimal (whole : List Char) (fraction : Option (List Char))
  | constant (constant : Constant)
  | unary (op : Sign) (operand : Formula)
  | binary (op : Operator) (left right : Formula)
  | builtin (function : Builtin) (arguments : List Formula)
  | call (callable : Callable) (arguments : List FormulaArgument)

inductive FormulaArgument where
  | number (formula : Formula)
  | text (text : String)
end

structure FormulaCall where
  callable : Callable
  arguments : List FormulaArgument

def Formula.isOperation : Formula → Bool
  | unary .. | binary .. => true
  | _ => false

def enclose (wanted : Bool) (text : List Char) : List Char :=
  if wanted then '(' :: (text ++ [')']) else text

section Writing
variable (gap : Nat)

mutual
def Formula.spelling : Formula → List Char
  | .decimal whole none => whole
  | .decimal whole (some fraction) => whole ++ '.' :: fraction
  | .constant known => known.name.toList
  | .unary op operand => op.symbol.spelling ++ enclose operand.isOperation operand.spelling
  | .binary op left right =>
    enclose left.isOperation left.spelling ++
      (' ' :: op.symbol.spelling ++ ' ' :: enclose right.isOperation right.spelling)
  | .builtin function arguments =>
    function.name.toList ++ parenthesized gap (Formula.spellings arguments)
  | .call callable arguments =>
    callable.spelling ++ parenthesized gap (FormulaArgument.spellings arguments)

def Formula.spellings : List Formula → List (List Char)
  | [] => []
  | formula :: rest => formula.spelling :: Formula.spellings rest

def FormulaArgument.spelling : FormulaArgument → List Char
  | .number formula => formula.spelling
  | .text text => Source.quote text.toList

def FormulaArgument.spellings : List FormulaArgument → List (List Char)
  | [] => []
  | argument :: rest => argument.spelling :: FormulaArgument.spellings rest
end

end Writing

section Calls

mutual
def Formula.calls : Formula → List FormulaCall
  | .decimal .. | .constant _ => []
  | .unary _ operand => operand.calls
  | .binary _ left right => left.calls ++ right.calls
  | .builtin _ arguments => Formula.callsAll arguments
  | .call callable arguments => [⟨callable, arguments⟩]

def Formula.callsAll : List Formula → List FormulaCall
  | [] => []
  | formula :: rest => formula.calls ++ Formula.callsAll rest
end

mutual
def Formula.evaluate (values : List Float) : Formula → Float
  | .decimal whole fraction => decimalValue whole (fraction.getD [])
  | .constant known => known.value
  | .unary op operand => op.apply (operand.evaluate values)
  | .binary op left right =>
    op.apply (left.evaluate values) (right.evaluate (values.drop left.calls.length))
  | .builtin function arguments => function.apply (Formula.evaluateAll values arguments)
  | .call _ _ => values.headD 0

def Formula.evaluateAll (values : List Float) : List Formula → List Float
  | [] => []
  | formula :: rest =>
    formula.evaluate values :: Formula.evaluateAll (values.drop formula.calls.length) rest
end

end Calls

section Depth

mutual
/-- How many levels nest in the arithmetic of a formula: parentheses, signs, exponents and the
arguments of builtins. -/
def Formula.levels : Formula → Nat
  | .decimal .. | .constant _ | .call .. => 0
  | .unary _ operand => operand.levels + operand.isOperation.toNat + 1
  | .binary op left right => max (left.levels + left.isOperation.toNat)
      (right.levels + right.isOperation.toNat + (op == .power).toNat)
  | .builtin _ arguments => Formula.levelsAll arguments + 1

def Formula.levelsAll : List Formula → Nat
  | [] => 0
  | formula :: rest => max formula.levels (Formula.levelsAll rest)
end

mutual
/-- The greatest number of levels in a formula and in all formulas that its calls are given. -/
def Formula.depth : Formula → Nat
  | .decimal .. | .constant _ => 0
  | .unary op operand => max (Formula.unary op operand).levels operand.depth
  | .binary op left right =>
    max (Formula.binary op left right).levels (max left.depth right.depth)
  | .builtin function arguments =>
    max (Formula.builtin function arguments).levels (Formula.depthAll arguments)
  | .call _ arguments => FormulaArgument.depthAll arguments

def Formula.depthAll : List Formula → Nat
  | [] => 0
  | formula :: rest => max formula.depth (Formula.depthAll rest)

def FormulaArgument.depth : FormulaArgument → Nat
  | .number formula => formula.depth
  | .text _ => 0

def FormulaArgument.depthAll : List FormulaArgument → Nat
  | [] => 0
  | argument :: rest => max argument.depth (FormulaArgument.depthAll rest)
end

mutual
def Formula.nesting : Formula → Nat
  | .decimal .. | .constant _ => 0
  | .unary _ operand => operand.nesting
  | .binary _ left right => max left.nesting right.nesting
  | .builtin _ arguments => Formula.nestingAll arguments
  | .call _ arguments => FormulaArgument.nestingAll arguments

def Formula.nestingAll : List Formula → Nat
  | [] => 0
  | formula :: rest => max formula.nesting (Formula.nestingAll rest)

def FormulaArgument.nesting : FormulaArgument → Nat
  | .number formula => formula.nesting + 1
  | .text _ => 1

def FormulaArgument.nestingAll : List FormulaArgument → Nat
  | [] => 0
  | argument :: rest => max argument.nesting (FormulaArgument.nestingAll rest)
end

end Depth

section Fitting
variable (world : World)

mutual
/-- Whether a formula is one of a world: its numbers are written in digits, its builtins take their
arguments, and its calls mean functions that do so. -/
def Formula.Fits : Formula → Prop
  | .decimal whole fraction => (whole ≠ [] ∧ ∀ c ∈ whole, c.isDigit = true) ∧
      ∀ digits ∈ fraction, digits ≠ [] ∧ ∀ c ∈ digits, c.isDigit = true
  | .constant _ => True
  | .unary _ operand => operand.Fits
  | .binary _ left right => left.Fits ∧ right.Fits
  | .builtin function arguments =>
    function.accepts arguments.length = true ∧ Formula.FitsAll arguments
  | .call callable arguments =>
    (∀ name ∈ callable.ownName?, isReserved name = false) ∧
      ∃ target, callable.target? world = some target ∧
        mandatoryCount target.declarations ≤ target.receivers.length + arguments.length ∧
        target.receivers.length + arguments.length ≤ target.declarations.length ∧
        FormulaArgument.FitsAll arguments (target.declarations.drop target.receivers.length)

def Formula.FitsAll : List Formula → Prop
  | [] => True
  | formula :: rest => formula.Fits ∧ Formula.FitsAll rest

def FormulaArgument.Fits : FormulaArgument → Declaration → Prop
  | .number formula, declaration => declaration.kind.treatment = .number ∧ formula.Fits
  | .text text, declaration =>
    declaration.kind.treatment = .text ∧ text.toList.getLast? ≠ some '\\'

def FormulaArgument.FitsAll : List FormulaArgument → List Declaration → Prop
  | [], _ => True
  | _ :: _, [] => False
  | argument :: rest, declaration :: declarations =>
    argument.Fits declaration ∧ FormulaArgument.FitsAll rest declarations
end

end Fitting

inductive Input where
  | name (name : String)
  | number (value : Float)
  | text (form : TextForm)

section Hosts
variable (host : Routine → List Input → Float)

mutual
def Formula.value (world : World) : Formula → Float
  | .decimal whole fraction => decimalValue whole (fraction.getD [])
  | .constant known => known.value
  | .unary op operand => op.apply (operand.value world)
  | .binary op left right => op.apply (left.value world) (right.value world)
  | .builtin function arguments => function.apply (Formula.valueAll world arguments)
  | .call callable arguments =>
    match callable.target? world with
    | none => 0
    | some target =>
      host target.routine (target.receivers.map .name ++ FormulaArgument.inputs world arguments)

def Formula.valueAll (world : World) : List Formula → List Float
  | [] => []
  | formula :: rest => formula.value world :: Formula.valueAll world rest

def FormulaArgument.input (world : World) : FormulaArgument → Input
  | .number formula => .number (formula.value world)
  | .text text => .text ⟨[.literal text]⟩

def FormulaArgument.inputs (world : World) : List FormulaArgument → List Input
  | [] => []
  | argument :: rest => argument.input world :: FormulaArgument.inputs world rest
end

mutual
/-- The value of a numeric form whose calls are carried out by a host, innermost first. -/
def NumericForm.run : NumericForm → Float
  | ⟨calls, program⟩ => program.evaluate (NumericCall.runAll calls)

def NumericCall.run : NumericCall → Float
  | ⟨routine, parameters⟩ => host routine (Expression.inputs parameters)

def NumericCall.runAll : List NumericCall → List Float
  | [] => []
  | call :: rest => call.run :: NumericCall.runAll rest

/-- What a parameter passes: its numeric form, else its text form, else its text. -/
def Expression.input : Expression → Input
  | ⟨_, _, .ready form, _, _⟩ => .number form.run
  | ⟨_, _, _, .ready form, _⟩ => .text form
  | ⟨raw, _, _, _, _⟩ => .name raw

def Expression.inputs : List Expression → List Input
  | [] => []
  | parameter :: rest => parameter.input :: Expression.inputs rest
end

end Hosts

end SceneFormula
