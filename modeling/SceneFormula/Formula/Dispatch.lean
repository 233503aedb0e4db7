import SceneFormula.Formula.Expression

namespace SceneFormula

structure Dispatcher (m : Type → Type) (α : Type) where
  free : FunctionRef → List Expression → m α
  object : EntityType → FunctionRef → List Expression → m α
  component : EntityType → FunctionRef → List Expression → m α

namespace Dispatcher
variable {m : Type → Type} {α : Type}

def dispatch (dispatcher : Dispatcher m α) (routine : Routine) (parameters : List Expression) :
    m α :=
  match routine with
  | .free function => dispatcher.free function parameters
  | .object type function => dispatcher.object type function parameters
  | .component type function => dispatcher.component type function parameters

def run [Monad m] (dispatcher : Dispatcher m Float) (form : NumericForm) : m Float := do
  let values ← form.calls.mapM fun call => dispatcher.dispatch call.routine call.parameters
  return form.evaluate values

end Dispatcher
end SceneFormula
