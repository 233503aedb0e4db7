import SceneFormula.Formula.Expression

/-! Parameters of calls, each one prepared as its declaration asks. The compilers for that are
given, so that this holds at every depth. -/
namespace SceneFormula

structure Compilers where
  number : String → Except Fault NumericForm
  text : String → Except Fault TextForm

namespace Expression

def record (options : Options) (fault : Fault) (expression : Expression) : Expression :=
  if options.diagnostics then { expression with fault := some fault } else expression

def prepareNumberWith (compilers : Compilers) (options : Options) (expression : Expression) :
    Option Fault × Expression :=
  match compilers.number expression.raw with
  | .ok form => (none, { expression with number := .ready form })
  | .error fault => (some fault, { expression with number := .failed }.record options fault)

def prepareTextWith (compilers : Compilers) (options : Options) (expression : Expression) :
    Option Fault × Expression :=
  match compilers.text expression.raw with
  | .ok form => (none, { expression with text := .ready form })
  | .error fault => (some fault, { expression with text := .failed }.record options fault)

/-- Prepares a parameter that starts at `base` of the text around it. Its fault is told as one of
that text. -/
def bindTo (compilers : Compilers) (options : Options) (declaration : Declaration) (base : Nat)
    (parameter : Expression) : Option Fault × Expression :=
  let (fault, parameter) :=
    match declaration.kind.treatment with
    | .number => parameter.prepareNumberWith compilers options
    | .text => parameter.prepareTextWith compilers options
    | .verbatim => (none, parameter)
  (fault.map (·.movedBy base), parameter)

end Expression

/-- Adds one parameter to a list, prepared if it is declared. One that is not declared is a fault
only where faults are kept. The list grows in every case. -/
def addParameter (context : Context) (compilers : Compilers) (declarations : List Declaration)
    (parameters : List Expression) (raw : String) (base : Nat) :
    Option Fault × List Expression :=
  let parameter := Expression.ofRaw context.world raw
  match declarations[parameters.length]? with
  | some declaration =>
    let (fault, parameter) := parameter.bindTo compilers context.options declaration base
    (fault, parameters ++ [parameter])
  | none =>
    (if context.options.diagnostics then some (.tooManyParameters base) else none,
      parameters ++ [parameter])

end SceneFormula
