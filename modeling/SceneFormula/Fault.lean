/-! What can be wrong with an expression, where, and how it is told to the author. Positions are
byte offsets into the text at hand; a parameter's fault is moved into the text that encloses it. -/
namespace SceneFormula

inductive Fault where
  | unterminatedParentheses (position : Nat)
  | unterminatedQuotes (position : Nat)
  | tooManyParameters (position : Nat)
  | wrongParameterCount (position atLeast atMost found : Nat)
  | missingParameterParentheses (position : Nat)
  | unrecognizedFunction (name : String) (position : Nat)
  | missingConcatenationOperator (position : Nat)
  | missingTermBetweenOperators (position : Nat)
  | emptyOrInvalidExpression (position : Nat)
  | arithmeticSyntax (reason : String)
  | nestingTooDeep (limit : Nat)
  | invalidOptions (reason : String)
  deriving DecidableEq, Repr

namespace Fault

/-- Where the fault lies. Malformed arithmetic, excess nesting and bad options have no place. -/
def position : Fault → Option Nat
  | unterminatedParentheses p | unterminatedQuotes p | tooManyParameters p
  | wrongParameterCount p _ _ _ | missingParameterParentheses p | unrecognizedFunction _ p
  | missingConcatenationOperator p | missingTermBetweenOperators p
  | emptyOrInvalidExpression p => some p
  | arithmeticSyntax _ | nestingTooDeep _ | invalidOptions _ => none

/-- The fault as seen from a text in which its own text starts at `base`. -/
def movedBy (base : Nat) : Fault → Fault
  | unterminatedParentheses p => unterminatedParentheses (base + p)
  | unterminatedQuotes p => unterminatedQuotes (base + p)
  | tooManyParameters p => tooManyParameters (base + p)
  | wrongParameterCount p atLeast atMost found =>
    wrongParameterCount (base + p) atLeast atMost found
  | missingParameterParentheses p => missingParameterParentheses (base + p)
  | unrecognizedFunction name p => unrecognizedFunction name (base + p)
  | missingConcatenationOperator p => missingConcatenationOperator (base + p)
  | missingTermBetweenOperators p => missingTermBetweenOperators (base + p)
  | emptyOrInvalidExpression p => emptyOrInvalidExpression (base + p)
  | arithmeticSyntax reason => arithmeticSyntax reason
  | nestingTooDeep limit => nestingTooDeep limit
  | invalidOptions reason => invalidOptions reason

def message : Fault → String
  | unterminatedParentheses p => s!"unterminated parentheses at {p}"
  | unterminatedQuotes p => s!"unterminated quotes at {p}"
  | tooManyParameters p => s!"too many parameters in function call at {p}"
  | wrongParameterCount p atLeast atMost found =>
    s!"wrong parameter count at {p}: expected {atLeast} to {atMost}, got {found}"
  | missingParameterParentheses p => s!"missing parameter parentheses at {p}"
  | unrecognizedFunction name p => s!"unrecognized function '{name}' at {p}"
  | missingConcatenationOperator p => s!"missing '+' between strings at {p}"
  | missingTermBetweenOperators p => s!"missing term between two '+' at {p}"
  | emptyOrInvalidExpression p =>
    s!"empty or invalid expression at {p}: expected a quoted text or a function"
  | arithmeticSyntax reason => s!"arithmetic syntax error: {reason}"
  | nestingTooDeep limit => s!"nesting too deep: more than {limit} nested levels"
  | invalidOptions reason => s!"invalid options: {reason}"

theorem position_movedBy (base : Nat) (fault : Fault) :
    (fault.movedBy base).position = fault.position.map (base + ·) := by
  cases fault <;> rfl

end Fault
end SceneFormula
