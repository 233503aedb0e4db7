import SceneFormula.Formula.Expression

namespace SceneFormula

inductive Comparison where
  | equal | less | greater | lessOrEqual | greaterOrEqual | notEqual
  deriving DecidableEq, Repr

inductive Modification where
  | set | add | subtract | multiply | divide
  deriving DecidableEq, Repr

def Comparison.ofSymbol? : String → Option Comparison
  | "=" => some equal
  | "<" => some less
  | ">" => some greater
  | "<=" => some lessOrEqual
  | ">=" => some greaterOrEqual
  | "!=" => some notEqual
  | _ => none

def Modification.ofSymbol? : String → Option Modification
  | "=" => some set
  | "+" => some add
  | "-" => some subtract
  | "*" => some multiply
  | "/" => some divide
  | _ => none

namespace Expression

def comparison? (expression : Expression) : Option Comparison :=
  Comparison.ofSymbol? expression.raw

def modification? (expression : Expression) : Option Modification :=
  Modification.ofSymbol? expression.raw

end Expression
end SceneFormula
