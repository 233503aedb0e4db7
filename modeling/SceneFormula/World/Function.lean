namespace SceneFormula

structure EntityType where
  value : UInt32
  deriving DecidableEq, Repr

structure FunctionRef where
  value : UInt32
  deriving DecidableEq, Repr

inductive ResultKind where
  | number | text
  deriving DecidableEq, Repr

/-- What a parameter is declared to be. A component is an automatism, and a kind of any other name
is known by that name alone. -/
inductive ParameterKind where
  | expression | text | layer | color | file | joyaxis | object | automatism
  | other (name : String)
  deriving DecidableEq, Repr

inductive Treatment where
  | number | text | verbatim
  deriving DecidableEq, Repr

namespace ParameterKind

def known : List ParameterKind :=
  [expression, text, layer, color, file, joyaxis, object, automatism]

def name : ParameterKind → String
  | expression => "expression"
  | text => "text"
  | layer => "layer"
  | color => "color"
  | file => "file"
  | joyaxis => "joyaxis"
  | object => "object"
  | automatism => "automatism"
  | other name => name

def ofName (name : String) : ParameterKind :=
  (known.find? (·.name == name)).getD (other name)

/-- Receivers are names and stay as they are. All that is no number is a text. -/
def treatment : ParameterKind → Treatment
  | expression => .number
  | object | automatism => .verbatim
  | _ => .text

theorem name_ofName (name : String) : (ofName name).name = name := by
  unfold ofName
  cases h : known.find? (·.name == name) with
  | none => rfl
  | some kind => simpa using List.find?_some h

end ParameterKind

structure Declaration where
  kind : ParameterKind
  optional : Bool := false
  deriving DecidableEq, Repr

def mandatoryCount (declarations : List Declaration) : Nat :=
  declarations.countP (!·.optional)

/-- A registered function. A function of an object declares the object first, and one of a component
declares the object and then the component. -/
structure Signature where
  id : FunctionRef
  parameters : List Declaration
  deriving DecidableEq, Repr

inductive Scope where
  | free
  | object (type : EntityType)
  | component (type : EntityType)
  deriving DecidableEq, Repr

end SceneFormula
