import SceneFormula.Formula.Numeric
import SceneFormula.Proofs.Lexing
import SceneFormula.Proofs.Variables

namespace SceneFormula
open Arithmetic (Builtin TokenKind isNamePart isNamePart_of_isDigit isReserved)

theorem toList_variableName (index : Nat) :
    (variableName index).toList = 'x' :: Nat.toDigits 10 index := by
  rw [variableName, toString, instToStringString]
  simp

theorem isDigit_of_mem_toDigits {index : Nat} {c : Char} (h : c ∈ Nat.toDigits 10 index) :
    c.isDigit = true :=
  Nat.isDigit_of_mem_toDigits (by decide) (by decide) h

theorem variableName_inj {index other : Nat} (h : variableName index = variableName other) :
    index = other := by
  have hl := congrArg String.toList h
  rw [toList_variableName, toList_variableName] at hl
  rw [← Nat.ofDigitChars_toDigits (b := 10) (n := index) (by decide) (by decide),
    (List.cons.inj hl).2, Nat.ofDigitChars_toDigits (by decide) (by decide)]

/-- A name of a variable is one run of characters of a name. -/
theorem isNamePart_of_mem_variableName {index : Nat} {c : Char}
    (h : c ∈ (variableName index).toList) : isNamePart c = true := by
  rw [toList_variableName] at h
  rcases List.mem_cons.mp h with rfl | h
  · rfl
  · exact isNamePart_of_isDigit (isDigit_of_mem_toDigits h)

/-- The reserved names are those of the builtin functions and of the constants. -/
theorem eq_of_isReserved {name : String} (h : isReserved name = true) :
    (∃ function : Builtin, name = function.name) ∨ name = "pi" ∨ name = "e" := by
  rw [isReserved, Bool.or_eq_true] at h
  rcases h with h | h
  · obtain ⟨function, hf⟩ := Option.isSome_iff_exists.mp h
    obtain rfl : function.name = name := by simpa using List.find?_some hf
    exact .inl ⟨function, rfl⟩
  · unfold Arithmetic.constant? at h
    split at h
    · rename_i hpi
      exact .inr (.inl hpi)
    · split at h
      · rename_i he
        exact .inr (.inr he)
      · cases h

private theorem head_builtin (function : Builtin) : function.name.toList.head? ≠ some 'x' := by
  cases function <;> decide

/-- No builtin function and no constant starts with an `x`. -/
theorem not_isReserved_of_head {name : String} (h : name.toList.head? = some 'x') :
    isReserved name = false := by
  rw [← Bool.not_eq_true]
  intro hr
  rcases eq_of_isReserved hr with ⟨function, rfl⟩ | rfl | rfl
  · exact head_builtin function h
  · exact absurd h (by decide)
  · exact absurd h (by decide)

theorem not_isReserved_variableName (index : Nat) : isReserved (variableName index) = false :=
  not_isReserved_of_head (by rw [toList_variableName, List.head?_cons])

theorem length_variableNames (count : Nat) : (variableNames count).length = count := by
  rw [variableNames, List.length_map, List.length_range]

theorem mem_variableNames {count : Nat} {name : String} :
    name ∈ variableNames count ↔ ∃ index < count, variableName (index + 1) = name := by
  simp [variableNames]

theorem not_isReserved_of_mem {count : Nat} {name : String} (h : name ∈ variableNames count) :
    isReserved name = false := by
  obtain ⟨index, _, rfl⟩ := mem_variableNames.mp h
  exact not_isReserved_variableName _

theorem idxOf?_variableNames {count : Nat} {name : String} {index : Nat} :
    (variableNames count).idxOf? name = some index ↔
      index < count ∧ name = variableName (index + 1) := by
  have hget {k : Nat} (h : k < (variableNames count).length) :
      (variableNames count)[k] = variableName (k + 1) := by
    simp [variableNames]
  rw [List.idxOf?_eq_some_iff]
  constructor
  · rintro ⟨h, hi, _⟩
    rw [length_variableNames] at h
    exact ⟨h, by rw [← hi, hget]⟩
  · rintro ⟨h, rfl⟩
    refine ⟨by rwa [length_variableNames], hget _, fun j hj he => ?_⟩
    rw [hget] at he
    have := variableName_inj he
    omega

theorem idxOf?_variableNames_eq_none {count : Nat} {name : String}
    (h : isReserved name = true) : (variableNames count).idxOf? name = none := by
  rw [List.idxOf?_eq_none_iff]
  intro hm
  rw [not_isReserved_of_mem hm] at h
  cases h

theorem builtin_eq_none_of_mem {count : Nat} {name : String} (h : name ∈ variableNames count) :
    Builtin.ofName? name = none := by
  have hr := not_isReserved_of_mem h
  rw [isReserved, Bool.or_eq_false_iff] at hr
  simpa using hr.1

/-- The variables that tokens name are those of the calls. -/
theorem index_lt_of_mem {count index : Nat} {kinds : List TokenKind}
    (h : index ∈ kinds.filterMap (TokenKind.parameter? (variableNames count))) : index < count := by
  obtain ⟨kind, _, hk⟩ := List.mem_filterMap.mp h
  cases kind with
  | name text => exact (idxOf?_variableNames.mp hk).1
  | number | symbol => cases hk

end SceneFormula
