import SceneFormula.World.Function

/-! A registry that grows: every registration takes the next number, and the last one under a kind,
scope and name counts. -/
namespace SceneFormula

structure FunctionKey where
  kind : ResultKind
  scope : Scope
  name : String
  deriving DecidableEq, Repr

structure FunctionTable where
  entries : List (FunctionKey × Signature) := []
  nextId : UInt32 := 0

namespace FunctionTable

def register (table : FunctionTable) (key : FunctionKey) (parameters : List Declaration) :
    FunctionRef × FunctionTable :=
  let id := ⟨table.nextId⟩
  (id, ⟨(key, ⟨id, parameters⟩) :: table.entries, table.nextId + 1⟩)

def find? (table : FunctionTable) (key : FunctionKey) : Option Signature :=
  table.entries.lookup key

theorem find?_register_self (table : FunctionTable) (key : FunctionKey)
    (parameters : List Declaration) :
    (table.register key parameters).2.find? key = some ⟨⟨table.nextId⟩, parameters⟩ := by
  simp [register, find?]

theorem find?_register_of_ne (table : FunctionTable) {key other : FunctionKey}
    (parameters : List Declaration) (h : other ≠ key) :
    (table.register key parameters).2.find? other = table.find? other := by
  simp [register, find?, List.lookup_cons, beq_false_of_ne h]

end FunctionTable
end SceneFormula
