import SceneFormula.Arithmetic.Grammar

namespace SceneFormula.Arithmetic

structure Program where
  source : String
  parameters : List String
  term : Term

namespace Program

/-- Reads a text in which at most `limit` levels may nest. A name stands for a parameter before it
stands for a constant. -/
def parse (source : String) (parameters : List String) (limit : Nat) : Except Fault Program :=
  let text := source.toList
  match Token.read text with
  | .error fault => .error fault.toFault
  | .ok tokens =>
    match Term.ofTokens ⟨parameters, Source.width text, limit⟩ tokens with
    | .error fault => .error fault
    | .ok term => .ok ⟨source, parameters, term⟩

def zero : Program :=
  ⟨"0", [], .number 0⟩

def optimize (program : Program) : Program :=
  { program with term := program.term.fold }

def evaluate (program : Program) (values : List Float) : Float :=
  program.term.evaluate values

def constant? (program : Program) : Option Float :=
  program.term.asNumber?

end Program
end SceneFormula.Arithmetic
