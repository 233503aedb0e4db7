import SceneFormula.Formula.Numeric
import SceneFormula.Formula.Textual

/-! Compilers for every depth. Those for the parameters of a call are the ones for one level less,
so that the depth at which a text stands bounds how deep it may go on. -/
namespace SceneFormula

/-- The compilers with so many levels left, the present one included. -/
def Compilers.ofLevels (context : Context) : Nat → Compilers
  | 0 =>
    { number := fun _ => .error (.nestingTooDeep context.options.maxDepth.toNat)
      text := fun _ => .error (.nestingTooDeep context.options.maxDepth.toNat) }
  | left + 1 =>
    { number := fun raw => NumericForm.compileWith context (ofLevels context left) raw
      text := fun raw => TextForm.compileWith context (ofLevels context left) raw }

namespace Context

def compilersAt (context : Context) (depth : Nat) : Compilers :=
  .ofLevels context (context.options.maxDepth.toNat + 1 - depth)

def compileNumber (context : Context) (raw : String) : Except Fault NumericForm :=
  (context.compilersAt 0).number raw

def compileText (context : Context) (raw : String) : Except Fault TextForm :=
  (context.compilersAt 0).text raw

def expression (context : Context) (raw : String) : Expression :=
  .ofRaw context.world raw

end Context

namespace Expression

def bindAt (context : Context) (depth : Nat) (declaration : Declaration) (base : Nat)
    (parameter : Expression) : Option Fault × Expression :=
  parameter.bindTo (context.compilersAt (depth + 1)) context.options declaration base

/-- Prepares the numeric form, anew if it was prepared before, and tells whether that succeeds. -/
def prepareNumber (context : Context) (expression : Expression) : Bool × Expression :=
  let (fault, expression) :=
    expression.prepareNumberWith (context.compilersAt 0) context.options
  (fault.isNone, expression)

def prepareText (context : Context) (expression : Expression) : Bool × Expression :=
  let (fault, expression) := expression.prepareTextWith (context.compilersAt 0) context.options
  (fault.isNone, expression)

def prepareBoth (context : Context) (expression : Expression) : Bool × Expression :=
  let (number, expression) := expression.prepareNumber context
  let (text, expression) := expression.prepareText context
  (number && text, expression)

/-- The numeric form, prepared if it was not yet. It is the constant zero after a failure. -/
def numberForm (context : Context) (expression : Expression) : NumericForm × Expression :=
  match expression.number with
  | .absent =>
    let expression := (expression.prepareNumber context).2
    ((expression.number.form? .zero).getD .zero, expression)
  | .failed => (.zero, expression)
  | .ready form => (form, expression)

def textForm (context : Context) (expression : Expression) : TextForm × Expression :=
  match expression.text with
  | .absent =>
    let expression := (expression.prepareText context).2
    ((expression.text.form? .empty).getD .empty, expression)
  | .failed => (.empty, expression)
  | .ready form => (form, expression)

end Expression
end SceneFormula
