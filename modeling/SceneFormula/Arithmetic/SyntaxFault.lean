import SceneFormula.Fault

namespace SceneFormula.Arithmetic

inductive SyntaxFault where
  | loneEqual (position : Nat)
  | loneAnd (position : Nat)
  | loneOr (position : Nat)
  | strayCharacter (c : Char) (position : Nat)
  | empty
  | trailing (position : Nat)
  | unexpected (label : String) (position : Nat)
  | unknownVariable (name : String) (position : Nat)
  | unknownFunction (name : String) (position : Nat)
  | wrongArity (name : String) (count position : Nat)
  | unclosedGroup (position : Nat)
  | unclosedCall (position : Nat)
  deriving DecidableEq, Repr

namespace SyntaxFault

def message : SyntaxFault → String
  | loneEqual p => s!"unexpected '=' at {p}; use '==' for equality"
  | loneAnd p => s!"unexpected '&' at {p}; expected '&&'"
  | loneOr p => s!"unexpected '|' at {p}; expected '||'"
  | strayCharacter c p => s!"unexpected character '{c}' at {p}"
  | empty => "empty expression"
  | trailing p => s!"unexpected token after expression at position {p}"
  | unexpected label p => s!"unexpected token {label} at {p}"
  | unknownVariable name p => s!"unknown variable '{name}' at {p}"
  | unknownFunction name p => s!"unknown function '{name}' at {p}"
  | wrongArity name count p => s!"{name} does not accept {count} arguments (at {p})"
  | unclosedGroup p => s!"expected ')' after expression at {p}"
  | unclosedCall p => s!"expected ')' after call at {p}"

def toFault (fault : SyntaxFault) : Fault :=
  .arithmeticSyntax fault.message

end SyntaxFault
end SceneFormula.Arithmetic
