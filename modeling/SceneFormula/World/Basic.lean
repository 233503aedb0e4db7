import SceneFormula.Options
import SceneFormula.World.FunctionTable
import SceneFormula.World.NameTable
import SceneFormula.World.SceneTable

/-! What expressions are prepared against. Preparing one asks these questions and no others. -/
namespace SceneFormula

structure World where
  function? : ResultKind → Scope → String → Option Signature
  objectType? : String → Option EntityType
  componentType? : String → Option EntityType
  attached : String → List EntityType
  identifier? : String → Option NameId

def World.ofTables (functions : FunctionTable) (scene : SceneTable) (names : NameTable) :
    World where
  function? kind scope name := functions.find? ⟨kind, scope, name⟩
  objectType? := scene.objectType?
  componentType? := scene.componentType?
  attached := scene.attached
  identifier? := names.find?

structure Context where
  world : World
  options : Options := {}

end SceneFormula
