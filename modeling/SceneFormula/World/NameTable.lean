namespace SceneFormula

structure NameId where
  value : UInt32
  deriving DecidableEq, Repr

/-- The known names. The place of a name is its number. -/
structure NameTable where
  names : List String := []

namespace NameTable

def find? (table : NameTable) (name : String) : Option NameId :=
  (table.names.idxOf? name).map fun index => ⟨index.toUInt32⟩

def intern (table : NameTable) (name : String) : NameId × NameTable :=
  match table.find? name with
  | some identifier => (identifier, table)
  | none => (⟨table.names.length.toUInt32⟩, ⟨table.names ++ [name]⟩)

theorem find?_intern_of_ne (table : NameTable) {name other : String} (h : other ≠ name) :
    (table.intern name).2.find? other = table.find? other := by
  unfold intern
  cases table.find? name with
  | some identifier => rfl
  | none => simp [find?, List.idxOf?, List.findIdx?_append, h.symm]

end NameTable
end SceneFormula
