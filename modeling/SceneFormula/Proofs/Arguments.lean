import SceneFormula.Proofs.Flattening
import SceneFormula.Proofs.Scanning

namespace SceneFormula
open Arithmetic (isNamePart)
open Source (ArgumentList listed parenthesized pieces)
open Source.ArgumentList (Balanced)

theorem not_listing_of_isNamePart {c : Char} (h : isNamePart c = true) :
    c ∉ ['"', '(', ')', ',', '\\'] := by
  intro hc
  simp only [List.mem_cons, List.not_mem_nil, or_false] at hc
  rcases hc with rfl | rfl | rfl | rfl | rfl <;> cases h

private theorem balanced_of_parts {text : List Char} (h : ∀ c ∈ text, isNamePart c = true) :
    Balanced 0 text :=
  .of_plain fun c hc => not_listing_of_isNamePart (h c hc)

private theorem balanced_enclose {text : List Char} (enclosed : Bool) (h : Balanced 0 text) :
    Balanced 0 (enclose enclosed text) := by
  cases enclosed with
  | true => exact (h.mono (Nat.zero_le 1)).parentheses
  | false => exact h

theorem Callable.balanced_spelling {callable : Callable} (h : callable.Plain) :
    Balanced 0 callable.spelling := by
  have hfunction : ∀ c ∈ callable.function.toList, c ∉ ['"', '(', ')', ',', '\\'] := by
    intro c hc
    rcases h.function c hc with hp | rfl
    · exact not_listing_of_isNamePart hp
    · decide
  have howner {owner : String} (ho : callable.owner? = some owner) :
      ∀ c ∈ encodeSpaces owner.toList, c ∉ ['"', '(', ')', ',', '\\'] := by
    intro c hc
    rcases plain_of_isOwnerName (h.owner ho) c hc with hp | rfl
    · exact not_listing_of_isNamePart hp
    · decide
  cases callable with
  | free name => exact .of_plain hfunction
  | object owner name | component owner part name =>
    exact (Balanced.of_plain (howner rfl)).append
      (.cons (.char (by decide)) (.of_plain hfunction))

/-- No formula is written in spaces alone. -/
theorem Formula.not_blank {world : World} (gap : Nat) {formula : Formula}
    (hf : formula.Fits world) : ∃ c ∈ formula.spelling gap, c ≠ ' ' := by
  have hname {text : List Char} (h : isIdentifier text = true) : ∃ c ∈ text, c ≠ ' ' := by
    obtain ⟨c, rest, rfl, hc, -⟩ := exists_of_isIdentifier h
    refine ⟨c, List.mem_cons_self, ?_⟩
    rintro rfl
    cases hc
  have hdigits {text : List Char} (hne : text ≠ []) (h : ∀ c ∈ text, c.isDigit = true) :
      ∃ c ∈ text, c ≠ ' ' := by
    obtain ⟨c, rest, rfl⟩ := List.exists_cons_of_ne_nil hne
    refine ⟨c, List.mem_cons_self, ?_⟩
    rintro rfl
    cases h _ List.mem_cons_self
  have hsymbol (symbol : Arithmetic.Symbol) (h : symbol.Divides) :
      ∃ c ∈ symbol.spelling, c ≠ ' ' := by
    obtain ⟨c, rest, hc⟩ : ∃ c rest, symbol.spelling = c :: rest := by
      cases symbol <;> exact ⟨_, _, rfl⟩
    have hm : c ∈ symbol.spelling := by simp [hc]
    exact ⟨c, hm, (h c hm).2.2.2.2⟩
  match formula with
  | .decimal whole none => exact hdigits hf.1.1 hf.1.2
  | .decimal whole (some fraction) => exact ⟨'.', by simp [spelling], by decide⟩
  | .constant known => exact hname known.isIdentifier_name
  | .unary op operand =>
    obtain ⟨c, hc, hs⟩ := hsymbol op.symbol op.divides
    exact ⟨c, List.mem_append_left _ hc, hs⟩
  | .binary op left right =>
    obtain ⟨c, hc, hs⟩ := hsymbol op.symbol op.divides
    refine ⟨c, ?_, hs⟩
    rw [spelling]
    exact List.mem_append_right _ (List.mem_append_left _ (List.mem_cons_of_mem _ hc))
  | .builtin .. | .call .. => exact ⟨'(', by simp [spelling, parenthesized], by decide⟩

section Balance
variable {world : World} {gap : Nat}

mutual
theorem Formula.balanced (hw : world.Writable) : (formula : Formula) → formula.Fits world →
    Balanced 0 (formula.spelling gap)
  | .decimal whole none, hf =>
    balanced_of_parts fun c hc => Arithmetic.isNamePart_of_isDigit (hf.1.2 c hc)
  | .decimal whole (some fraction), hf => by
    refine (balanced_of_parts fun c hc => ?_).append
      (.cons (.char (by decide)) (balanced_of_parts fun c hc => ?_))
    · exact Arithmetic.isNamePart_of_isDigit (hf.1.2 c hc)
    · exact Arithmetic.isNamePart_of_isDigit ((hf.2 fraction rfl).2 c hc)
  | .constant known, _ =>
    balanced_of_parts (isNamePart_of_isIdentifier known.isIdentifier_name)
  | .unary op operand, hf => by
    have hs : Balanced 0 op.symbol.spelling := .of_plain fun c hc => (op.divides c hc).2.2.2.1
    exact hs.append (balanced_enclose _ (Formula.balanced hw operand hf))
  | .binary op left right, hf => by
    have hs : Balanced 0 (' ' :: op.symbol.spelling) :=
      .cons (.char (by decide)) (.of_plain fun c hc => (op.divides c hc).2.2.2.1)
    have hr := balanced_enclose right.isOperation (Formula.balanced hw right hf.2)
    exact (balanced_enclose _ (Formula.balanced hw left hf.1)).append
      (hs.append (.cons (.char (by decide)) hr))
  | .builtin function arguments, hf =>
    (balanced_of_parts (isNamePart_of_isIdentifier (isIdentifier_builtin function))).append
      (.parenthesized (Formula.balancedAll hw arguments hf.2))
  | .call callable arguments, ⟨_, target, ht, _, _, hf⟩ =>
    (Callable.balanced_spelling (Callable.plain hw ht)).append
      (.parenthesized fun text h => (FormulaArgument.balancedAll hw arguments _ hf text h).1)

theorem Formula.balancedAll (hw : world.Writable) : (formulas : List Formula) →
    Formula.FitsAll world formulas → ∀ text ∈ Formula.spellings gap formulas, Balanced 0 text
  | [], _, _, h => nomatch h
  | formula :: rest, hf, text, h => by
    rcases List.mem_cons.mp h with rfl | h
    · exact Formula.balanced hw formula hf.1
    · exact Formula.balancedAll hw rest hf.2 text h

theorem FormulaArgument.balancedAll (hw : world.Writable) : (arguments : List FormulaArgument) →
    (declarations : List Declaration) → FormulaArgument.FitsAll world arguments declarations →
      ∀ text ∈ FormulaArgument.spellings gap arguments, Balanced 0 text ∧ ∃ c ∈ text, c ≠ ' '
  | [], _, _, _, h => nomatch h
  | .number formula :: rest, declaration :: declarations, hf, text, h => by
    rcases List.mem_cons.mp h with rfl | h
    · exact ⟨Formula.balanced hw formula hf.1.2, formula.not_blank gap hf.1.2⟩
    · exact FormulaArgument.balancedAll hw rest declarations hf.2 text h
  | .text written :: rest, declaration :: declarations, hf, text, h => by
    rcases List.mem_cons.mp h with rfl | h
    · exact ⟨.quote hf.1.2, '"', List.mem_cons_self, by decide⟩
    · exact FormulaArgument.balancedAll hw rest declarations hf.2 text h
end

end Balance
end SceneFormula
