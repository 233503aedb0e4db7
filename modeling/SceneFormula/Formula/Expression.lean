import SceneFormula.Arithmetic.Program
import SceneFormula.Call.Resolution

/-! Expressions, and the numeric and the text form that one text can have. The parameters of a call
are expressions again. -/
namespace SceneFormula
open Arithmetic (Program)

inductive Preparation (α : Type) where
  | absent
  | failed
  | ready (form : α)

namespace Preparation
variable {α : Type}

def form? (default : α) : Preparation α → Option α
  | absent => none
  | failed => some default
  | ready form => some form

def succeeded? : Preparation α → Option Bool
  | absent => none
  | failed => some false
  | ready _ => some true

end Preparation

mutual
/-- A text as written, the number of the name that it spells, its two forms, and the fault of the
latest preparation that failed while faults were kept. -/
structure Expression where
  raw : String
  identifier : Option NameId
  number : Preparation NumericForm
  text : Preparation TextForm
  fault : Option Fault

/-- Calls, and the arithmetic on their values: call `k` gives the variable `x(k+1)`. -/
structure NumericForm where
  calls : List NumericCall
  program : Program

structure NumericCall where
  routine : Routine
  parameters : List Expression

inductive TextStep where
  | literal (text : String)
  | call (routine : Routine) (parameters : List Expression)
  | number (expression : Expression)

structure TextForm where
  steps : List TextStep
end

def NumericForm.zero : NumericForm :=
  ⟨[], .zero⟩

def TextForm.empty : TextForm :=
  ⟨[]⟩

def NumericForm.evaluate (form : NumericForm) (values : List Float) : Float :=
  form.program.evaluate values

namespace Expression

def ofRaw (world : World) (raw : String) : Expression :=
  ⟨raw, world.identifier? raw, .absent, .absent, none⟩

end Expression
end SceneFormula
