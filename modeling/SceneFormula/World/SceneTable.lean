import SceneFormula.World.Function

namespace SceneFormula

structure SceneObject where
  type : EntityType
  attached : List EntityType := []
  deriving DecidableEq, Repr

structure SceneTable where
  objects : List (String × SceneObject) := []
  components : List (String × EntityType) := []

namespace SceneTable

def object? (scene : SceneTable) (name : String) : Option SceneObject :=
  scene.objects.lookup name

def objectType? (scene : SceneTable) (name : String) : Option EntityType :=
  (scene.object? name).map (·.type)

def componentType? (scene : SceneTable) (name : String) : Option EntityType :=
  scene.components.lookup name

def attached (scene : SceneTable) (name : String) : List EntityType :=
  ((scene.object? name).map (·.attached)).getD []

/-- Gives an object its type. One of that name keeps what is attached to it. -/
def addObject (scene : SceneTable) (name : String) (type : EntityType) : SceneTable :=
  { scene with objects := (name, ⟨type, scene.attached name⟩) :: scene.objects }

def addComponent (scene : SceneTable) (name : String) (type : EntityType) : SceneTable :=
  { scene with components := (name, type) :: scene.components }

/-- Attaches a type to an object, once. Nothing is attached to an object that is not there. -/
def attach (scene : SceneTable) (name : String) (type : EntityType) : SceneTable :=
  match scene.object? name with
  | none => scene
  | some object =>
    if type ∈ object.attached then scene
    else
      let object := { object with attached := object.attached ++ [type] }
      { scene with objects := (name, object) :: scene.objects }

theorem object?_addObject_of_ne (scene : SceneTable) {name other : String} (type : EntityType)
    (h : other ≠ name) : (scene.addObject name type).object? other = scene.object? other := by
  simp [addObject, object?, List.lookup_cons, beq_false_of_ne h]

theorem componentType?_addComponent_of_ne (scene : SceneTable) {name other : String}
    (type : EntityType) (h : other ≠ name) :
    (scene.addComponent name type).componentType? other = scene.componentType? other := by
  simp [addComponent, componentType?, List.lookup_cons, beq_false_of_ne h]

theorem object?_attach_of_ne (scene : SceneTable) {name other : String} (type : EntityType)
    (h : other ≠ name) : (scene.attach name type).object? other = scene.object? other := by
  unfold attach
  cases scene.object? name with
  | none => rfl
  | some object =>
    by_cases ha : type ∈ object.attached
    · simp only [if_pos ha]
    · simp only [if_neg ha]
      simp [object?, List.lookup_cons, beq_false_of_ne h]

theorem components_attach (scene : SceneTable) (name : String) (type : EntityType) :
    (scene.attach name type).components = scene.components := by
  unfold attach
  cases scene.object? name with
  | none => rfl
  | some object => exact apply_ite SceneTable.components _ _ _ |>.trans (ite_self _)

end SceneTable
end SceneFormula
