import SceneFormula.Proofs.Weaving

namespace SceneFormula
open Arithmetic (Lexeme Lexes Apart TokenKind Renaming isNamePart isReserved joins)
open Source (separators)

def shiftName (count offset : Nat) (name : String) : String :=
  match (variableNames count).idxOf? name with
  | some index => variableName (offset + index + 1)
  | none => name

theorem shiftName_variableName {count index : Nat} (offset : Nat) (h : index < count) :
    shiftName count offset (variableName (index + 1)) = variableName (offset + index + 1) := by
  rw [shiftName, idxOf?_variableNames.mpr ⟨h, rfl⟩]

theorem shiftName_of_not_mem {count : Nat} (offset : Nat) {name : String}
    (h : name ∉ variableNames count) : shiftName count offset name = name := by
  rw [shiftName, List.idxOf?_eq_none_iff.mpr h]

theorem not_mem_of_isReserved {count : Nat} {name : String} (h : isReserved name = true) :
    name ∉ variableNames count := by
  intro hm
  rw [not_isReserved_of_mem hm] at h
  cases h

private theorem isReserved_of_constant {name : String} {value : Float}
    (h : Arithmetic.constant? name = some value) : isReserved name = true := by
  simp [isReserved, h]

private theorem isReserved_of_builtin {name : String} {function : Arithmetic.Builtin}
    (h : Arithmetic.Builtin.ofName? name = some function) : isReserved name = true := by
  simp [isReserved, h]

/-- The first variables stay where more follow. -/
theorem renaming_first (count more : Nat) :
    Renaming id id (variableNames count) (variableNames (count + more)) where
  parameter := fun h => by
    obtain ⟨hi, rfl⟩ := idxOf?_variableNames.mp h
    exact idxOf?_variableNames.mpr ⟨Nat.lt_add_right more hi, rfl⟩
  constant := fun _ hv => ⟨rfl, idxOf?_variableNames_eq_none (isReserved_of_constant hv)⟩
  builtin := fun _ => rfl

/-- Variables are shifted behind others. -/
theorem renaming_shift (count offset : Nat) :
    Renaming (shiftName count offset) (offset + ·) (variableNames count)
      (variableNames (offset + count)) where
  parameter := fun h => by
    obtain ⟨hi, rfl⟩ := idxOf?_variableNames.mp h
    rw [shiftName_variableName offset hi]
    exact idxOf?_variableNames.mpr ⟨Nat.add_lt_add_left hi offset, rfl⟩
  constant := fun _ hv =>
    ⟨shiftName_of_not_mem offset (not_mem_of_isReserved (isReserved_of_constant hv)),
      idxOf?_variableNames_eq_none (isReserved_of_constant hv)⟩
  builtin := fun h => shiftName_of_not_mem offset (not_mem_of_isReserved (isReserved_of_builtin h))

theorem joins_part {c d : Char} (hc : isNamePart c = true) (hd : isNamePart d = false)
    (hdot : d ≠ '.') : joins c d = false := by
  have hn : c ≠ '=' ∧ c ≠ '!' ∧ c ≠ '<' ∧ c ≠ '>' ∧ c ≠ '&' ∧ c ≠ '|' := by
    refine ⟨?_, ?_, ?_, ?_, ?_, ?_⟩ <;> rintro rfl <;> exact absurd hc (by decide)
  obtain ⟨h1, h2, h3, h4, h5, h6⟩ := hn
  simp [joins, hd, hdot, h1, h2, h3, h4, h5, h6]

theorem lexes_variableName (index : Nat) :
    Lexes (variableName index).toList [.name (variableName index)] := by
  have hall : ∀ c ∈ (variableName index).toList, isNamePart c = true :=
    fun c hc => isNamePart_of_mem_variableName hc
  have ht := List.takeWhile_eq_self_iff.mpr hall
  have hd := List.dropWhile_eq_nil_iff.mpr hall
  have hx : Arithmetic.isNameStart 'x' = true := rfl
  rw [toList_variableName] at ht hd ⊢
  refine (Lexes.name_iff hx).mpr ⟨[], ?_, hd ▸ .done⟩
  rw [ht, ← toList_variableName, String.ofList_toList]

/-- Characters of a name end before text that neither goes on the name nor starts with a dot. -/
private theorem apart_variableName {index : Nat} {text : List Char}
    (h : ∀ c ∈ text.head?, isNamePart c = false ∧ c ≠ '.') :
    Apart (variableName index).toList text := by
  intro a ha b hb
  have hpart := isNamePart_of_mem_variableName (List.mem_of_getLast? ha)
  exact joins_part hpart (h b hb).1 (h b hb).2

/-- Tokens of a text that spells no variable stay. -/
theorem map_rename_of_fresh {total : Nat} (offset : Nat) {text : List Char}
    {kinds : List TokenKind} (h : Lexes text kinds) (hf : Fresh total text) :
    kinds.map (·.rename (shiftName total offset)) = kinds := by
  refine (List.map_congr_left fun kind hk => ?_).trans (List.map_id' kinds)
  cases kind with
  | name name =>
    exact congrArg TokenKind.name (shiftName_of_not_mem offset (hf kinds h name hk))
  | number | symbol => rfl

/-- Woven texts are read the same with their variables shifted, if no text goes on a variable and
none spells one. -/
theorem Weaves.lexes_shift {count total offset : Nat} {gaps : List (List Char)}
    {kinds : List TokenKind} (h : Weaves count gaps kinds) (hs : SeamedGaps gaps)
    (ha : ∀ gap ∈ gaps, ∀ c ∈ gap.head?, isNamePart c = false)
    (hf : ∀ gap ∈ gaps, Fresh total gap)
    (hc : count + gaps.length ≤ total) :
    Lexes (weave (offset + count) gaps) (kinds.map (·.rename (shiftName total offset))) := by
  induction h with
  | none => exact .done
  | @more count gap gaps own kinds hn hl _ ih =>
    rw [List.length_cons] at hc
    have hhead := ha gap List.mem_cons_self
    have ht : gap.takeWhile isNamePart = [] ∧ gap.dropWhile isNamePart = gap := by
      cases gap with
      | nil => exact ⟨rfl, rfl⟩
      | cons c gap => simp [hhead c rfl]
    rw [ht.2] at hl
    have hown := map_rename_of_fresh offset hl (hf gap List.mem_cons_self)
    have hrest := ih hs.tail (fun gap hg => ha gap (List.mem_cons_of_mem _ hg))
      (fun gap hg => hf gap (List.mem_cons_of_mem _ hg)) (by omega)
    have hseam : Apart gap (weave (offset + count + 1) gaps) := apart_weave fun next more he => by
      rw [he] at hs
      exact hs.head
    have hbehind : ∀ c ∈ (gap ++ weave (offset + count + 1) gaps).head?,
        isNamePart c = false ∧ c ≠ '.' := by
      cases gap with
      | nil =>
        rw [hn rfl]
        nofun
      | cons d gap =>
        intro c hc
        refine ⟨hhead c hc, ?_⟩
        rintro rfl
        exact hl.head_ne_dot hc
    rw [weave, List.append_assoc, List.map_cons, List.map_append, hown, ht.1, List.append_nil,
      String.ofList_toList]
    have hname : TokenKind.rename (shiftName total offset) (.name (variableName (count + 1))) =
        .name (variableName (offset + count + 1)) :=
      congrArg TokenKind.name (shiftName_variableName offset (by omega))
    rw [hname]
    exact (lexes_variableName _).append (hl.append hrest hseam) (apart_variableName hbehind)

end SceneFormula
