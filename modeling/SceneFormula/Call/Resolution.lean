import SceneFormula.Source.Name
import SceneFormula.World.Basic

/-! Which function a call means. A call without a receiver means a free function. One with a
receiver means a function of that object, or one of a component that is attached to it. -/
namespace SceneFormula

/-- A function as it is called. The function of an object takes the object first, and that of a
component takes the object and then the component. -/
inductive Routine where
  | free (function : FunctionRef)
  | object (type : EntityType) (function : FunctionRef)
  | component (type : EntityType) (function : FunctionRef)
  deriving DecidableEq, Repr

def Routine.function : Routine → FunctionRef
  | free function | object _ function | component _ function => function

/-- A call that means a known function: what to call, what the function declares, and the names that
go before the written parameters. -/
structure Target where
  routine : Routine
  declarations : List Declaration
  receivers : List String
  deriving DecidableEq, Repr

namespace World

def freeTarget? (world : World) (kind : ResultKind) (name : String) : Option Target :=
  (world.function? kind .free name).map fun signature =>
    ⟨.free signature.id, signature.parameters, []⟩

def objectTarget? (world : World) (kind : ResultKind) (object name : String) : Option Target :=
  match world.objectType? object with
  | none => none
  | some type =>
    (world.function? kind (.object type) name).map fun signature =>
      ⟨.object type signature.id, signature.parameters, [object]⟩

/-- The function that a name spells as a component, `::` and a member, where that component is
attached to the object. -/
def componentTarget? (world : World) (kind : ResultKind) (object name : String) : Option Target :=
  match Source.splitComponent name.toList with
  | none => none
  | some (component, member) =>
    let component := String.ofList component
    match world.componentType? component with
    | none => none
    | some type =>
      match world.function? kind (.component type) (String.ofList member) with
      | none => none
      | some signature =>
        if type ∈ world.attached object then
          some ⟨.component type signature.id, signature.parameters, [object, component]⟩
        else none

def resolve (world : World) (kind : ResultKind) (receiver : Option String) (name : String) :
    Option Target :=
  match receiver with
  | none => world.freeTarget? kind name
  | some object =>
    (world.objectTarget? kind object name).or (world.componentTarget? kind object name)

end World
end SceneFormula
