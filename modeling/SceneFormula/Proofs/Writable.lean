import SceneFormula.Proofs.VariableNames
import SceneFormula.World.Basic

namespace SceneFormula
open Arithmetic (isNamePart isReserved)

def isIdentifier : List Char → Bool
  | [] => false
  | c :: rest => c.isAlpha && rest.all isNamePart

theorem exists_of_isIdentifier {text : List Char} (h : isIdentifier text = true) :
    ∃ c rest, text = c :: rest ∧ c.isAlpha = true ∧ ∀ d ∈ rest, isNamePart d = true := by
  cases text with
  | nil => cases h
  | cons c rest =>
    simp only [isIdentifier, Bool.and_eq_true, List.all_eq_true] at h
    exact ⟨c, rest, rfl, h⟩

theorem isNamePart_of_isIdentifier {text : List Char} (h : isIdentifier text = true) :
    ∀ c ∈ text, isNamePart c = true := by
  obtain ⟨d, rest, rfl, hd, hrest⟩ := exists_of_isIdentifier h
  intro c hc
  rcases List.mem_cons.mp hc with rfl | hc
  · exact Arithmetic.isNamePart_of_isNameStart (by simp [Arithmetic.isNameStart, hd])
  · exact hrest c hc

theorem isIdentifier_builtin (function : Arithmetic.Builtin) :
    isIdentifier function.name.toList = true := by
  cases function <;> decide

theorem isIdentifier_of_isReserved {name : String} (h : isReserved name = true) :
    isIdentifier name.toList = true := by
  rcases eq_of_isReserved h with ⟨function, rfl⟩ | rfl | rfl
  · exact isIdentifier_builtin function
  · decide
  · decide

theorem isIdentifier_variableName (index : Nat) :
    isIdentifier (variableName index).toList = true := by
  have hdigits : ∀ c ∈ Nat.toDigits 10 index, isNamePart c = true :=
    fun c hc => Arithmetic.isNamePart_of_isDigit (isDigit_of_mem_toDigits hc)
  rw [toList_variableName, isIdentifier, List.all_eq_true.mpr hdigits]
  rfl

def isOwnerName : List Char → Bool
  | [] => false
  | c :: rest => c.isAlpha && rest.all fun d => isNamePart d || d == ' '

/-- A world whose functions, objects and components have names that can be written in formulas. -/
structure World.Writable (world : World) : Prop where
  function {kind : ResultKind} {scope : Scope} {name : String} {signature : Signature}
    (h : world.function? kind scope name = some signature) : isIdentifier name.toList = true
  object {name : String} {type : EntityType} (h : world.objectType? name = some type) :
    isOwnerName name.toList = true
  component {name : String} {type : EntityType} (h : world.componentType? name = some type) :
    isIdentifier name.toList = true
  attached {name : String} {type : EntityType} (h : type ∈ world.attached name) :
    isOwnerName name.toList = true

namespace World.Writable
variable {functions : FunctionTable} {scene : SceneTable} {names : NameTable}

private theorem mem_of_lookup {α β : Type} [BEq α] [LawfulBEq α] {entries : List (α × β)} {key : α}
    {value : β} (h : entries.lookup key = some value) : (key, value) ∈ entries := by
  obtain ⟨before, after, rfl, _⟩ := List.lookup_eq_some_iff.mp h
  exact List.mem_append_right _ List.mem_cons_self

/-- The world of tables can be written if all names in the tables can. -/
theorem ofTables
    (hf : ∀ entry ∈ functions.entries, isIdentifier entry.1.name.toList = true)
    (ho : ∀ object ∈ scene.objects, isOwnerName object.1.toList = true)
    (hc : ∀ component ∈ scene.components, isIdentifier component.1.toList = true) :
    (World.ofTables functions scene names).Writable where
  function h := hf _ (mem_of_lookup h)
  object h := by
    obtain ⟨object, hl, -⟩ := Option.map_eq_some_iff.mp h
    exact ho _ (mem_of_lookup hl)
  component h := hc _ (mem_of_lookup h)
  attached {name type} h := by
    change type ∈ scene.attached name at h
    rw [SceneTable.attached] at h
    cases hl : scene.object? name with
    | none =>
      rw [hl] at h
      cases h
    | some object => exact ho _ (mem_of_lookup hl)

end World.Writable

def Context.sample : Context where
  world := .ofTables
    { entries :=
      [(⟨.number, .free, "Count"⟩, ⟨⟨0⟩, [⟨.text, false⟩, ⟨.expression, true⟩]⟩),
        (⟨.number, .object ⟨1⟩, "X"⟩, ⟨⟨1⟩, [⟨.object, false⟩]⟩),
        (⟨.number, .component ⟨2⟩, "Speed"⟩,
          ⟨⟨2⟩, [⟨.object, false⟩, ⟨.automatism, false⟩, ⟨.expression, false⟩]⟩)]
      nextId := 3 }
    { objects := [("Player", ⟨⟨1⟩, [⟨2⟩]⟩), ("Red Box", ⟨⟨1⟩, []⟩)]
      components := [("Physics", ⟨2⟩)] }
    {}

end SceneFormula
