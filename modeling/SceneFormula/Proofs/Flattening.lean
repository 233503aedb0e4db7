import SceneFormula.Proofs.Formulas
import SceneFormula.Proofs.Shifting

namespace SceneFormula
open Arithmetic
open Source (listed parenthesized)

theorem Constant.isIdentifier_name (known : Constant) :
    isIdentifier known.name.toList = true := by
  cases known <;> decide

namespace Arithmetic

/-- The text spells the tokens in front of any text that no name runs into. -/
def Spells (text : List Char) (kinds : List TokenKind) : Prop :=
  ∀ rest more, (∀ c ∈ rest.head?, isNamePart c = false) → Lexes rest more →
    Lexes (text ++ rest) (kinds ++ more)

namespace Spells
variable {text other : List Char} {kinds more : List TokenKind}

theorem lexes (h : Spells text kinds) : Lexes text kinds := by
  simpa using h [] [] nofun .done

theorem identifier (h : isIdentifier text = true) : Spells text [.name (String.ofList text)] := by
  intro rest more hstop hr
  obtain ⟨c, text, rfl, halpha, ht⟩ := exists_of_isIdentifier h
  have hc : isNameStart c = true := by simp [isNameStart, halpha]
  have hall : ∀ d ∈ c :: text, isNamePart d = true := by
    intro d hd
    rcases List.mem_cons.mp hd with rfl | hd
    · exact isNamePart_of_isNameStart hc
    · exact ht d hd
  obtain ⟨htake, hdrop⟩ : (c :: text ++ rest).takeWhile isNamePart =
      (c :: text).takeWhile isNamePart ∧
        (c :: text ++ rest).dropWhile isNamePart = (c :: text).dropWhile isNamePart ++ rest :=
    while_append isNamePart fun d hd _ => hstop d hd
  rw [List.cons_append] at htake hdrop ⊢
  refine (Lexes.name_iff hc).mpr ⟨more, ?_, ?_⟩
  · rw [htake, List.takeWhile_eq_self_iff.mpr hall]
    rfl
  · rw [hdrop, List.dropWhile_eq_nil_iff.mpr hall]
    exact hr

private theorem of_number {whole rest : List Char} {lexeme : Lexeme} (hne : whole ≠ [])
    (hw : ∀ c ∈ whole, c.isDigit = true) (hl : Lexeme.number (whole ++ rest) = lexeme)
    (h : Lexes lexeme.rest more) : Lexes (whole ++ rest) (lexeme.kind :: more) := by
  obtain ⟨c, whole, rfl⟩ := List.exists_cons_of_ne_nil hne
  have hc := hw c List.mem_cons_self
  have hread : Lexeme.read? (c :: (whole ++ rest)) = some lexeme := by
    rw [Lexeme.read?, if_pos hc, ← hl, List.cons_append]
  exact .lexeme (not_isBlank_of_isNamePart (isNamePart_of_isDigit hc)) hread h

private theorem while_digits {digits rest : List Char} (hd : ∀ c ∈ digits, c.isDigit = true)
    (h : ∀ c ∈ rest.head?, c.isDigit = false) :
    (digits ++ rest).takeWhile Char.isDigit = digits ∧
      (digits ++ rest).dropWhile Char.isDigit = rest := by
  obtain ⟨htake, hdrop⟩ := while_append Char.isDigit fun c hc (_ : digits.all _ = true) => h c hc
  rw [htake, hdrop, List.takeWhile_eq_self_iff.mpr hd, List.dropWhile_eq_nil_iff.mpr hd]
  exact ⟨rfl, rfl⟩

private theorem not_isDigit_of_stop {rest : List Char}
    (h : ∀ c ∈ rest.head?, isNamePart c = false) : ∀ c ∈ rest.head?, c.isDigit = false := by
  intro c hc
  rw [← Bool.not_eq_true]
  intro hd
  have hpart := h c hc
  rw [isNamePart_of_isDigit hd] at hpart
  cases hpart

variable {whole fraction : List Char} (hne : whole ≠ []) (hw : ∀ c ∈ whole, c.isDigit = true)
include hne hw

theorem digits : Spells whole [.number (decimalValue whole [])] := by
  intro rest more hstop hr
  obtain ⟨htake, hdrop⟩ := while_digits hw (not_isDigit_of_stop hstop)
  have hl : Lexeme.number (whole ++ rest) = ⟨.number (decimalValue whole []), whole, rest⟩ := by
    rw [Lexeme.number, htake, hdrop]
    split
    · exact absurd rfl hr.head_ne_dot
    · rfl
  exact of_number hne hw hl hr

theorem decimal (hf : ∀ c ∈ fraction, c.isDigit = true) :
    Spells (whole ++ '.' :: fraction) [.number (decimalValue whole fraction)] := by
  intro rest more hstop hr
  have hdot : ∀ c ∈ ('.' :: (fraction ++ rest)).head?, c.isDigit = false := by
    intro c hc
    obtain rfl := Option.some.inj hc
    rfl
  obtain ⟨htake, hdrop⟩ := while_digits hw hdot
  obtain ⟨hfraction, hbehind⟩ := while_digits hf (not_isDigit_of_stop hstop)
  have hl : Lexeme.number (whole ++ '.' :: (fraction ++ rest)) =
      ⟨.number (decimalValue whole fraction), whole ++ '.' :: fraction, rest⟩ := by
    simp only [Lexeme.number, htake, hdrop, hfraction, hbehind]
  have hall := of_number hne hw hl hr
  simpa using hall

omit hne hw

/-- A symbol in front of a text, if no `=` behind it makes it another one. -/
theorem cons_symbol {symbol : Symbol} (hs : symbol.takesEqual = true → text.head? ≠ some '=')
    (ht : text ≠ []) (h : Spells text kinds) :
    Spells (symbol.spelling ++ text) (.symbol symbol :: kinds) := by
  intro rest more hstop hr
  obtain ⟨c, text, rfl⟩ := List.exists_cons_of_ne_nil ht
  rw [List.append_assoc]
  exact Lexes.symbol_append hs (h rest more hstop hr)

theorem spaces (count : Nat) (h : Spells text kinds) :
    Spells (List.replicate count ' ' ++ text) kinds := by
  intro rest more hstop hr
  induction count with
  | zero => exact h rest more hstop hr
  | succ count ih => exact .blank rfl ih

theorem group (h : Spells text kinds) : Spells ('(' :: (text ++ [')']))
    (.symbol .openParen :: (kinds ++ [.symbol .closeParen])) := by
  intro rest more hstop hr
  have hclose : Lexes (Symbol.closeParen.spelling ++ rest) (.symbol .closeParen :: more) :=
    Lexes.symbol_append nofun hr
  have hinner := h _ _ (fun c hc => by obtain rfl := Option.some.inj hc; rfl) hclose
  have hopen : Lexes (Symbol.openParen.spelling ++ (text ++ (Symbol.closeParen.spelling ++ rest)))
      (.symbol .openParen :: (kinds ++ .symbol .closeParen :: more)) :=
    Lexes.symbol_append nofun hinner
  simpa [Symbol.spelling] using hopen

/-- Two texts, if no name runs on from the first one into the second one. -/
theorem append (h : Spells text kinds) (ho : Spells other more) (hne : other ≠ [])
    (hstop : ∀ c ∈ other.head?, isNamePart c = false) : Spells (text ++ other) (kinds ++ more) := by
  intro rest behind hrest hr
  obtain ⟨c, other, rfl⟩ := List.exists_cons_of_ne_nil hne
  rw [List.append_assoc, List.append_assoc]
  exact h _ _ hstop (ho rest behind hrest hr)

/-- Two texts with an operator and spaces between them. -/
theorem binary (op : Operator) (h : Spells text kinds) (ho : Spells other more) :
    Spells (text ++ (' ' :: op.symbol.spelling ++ ' ' :: other))
      (kinds ++ .symbol op.symbol :: more) := by
  have hright : Spells (op.symbol.spelling ++ ' ' :: other) (.symbol op.symbol :: more) :=
    cons_symbol (fun _ => by simp) (List.cons_ne_nil _ _) (spaces 1 ho)
  refine h.append (spaces 1 hright) (List.cons_ne_nil _ _) fun c hc => ?_
  obtain rfl := Option.some.inj hc
  rfl

/-- Two texts with a comma and so many spaces between them. -/
theorem comma (gap : Nat) (h : Spells text kinds) (ho : Spells other more) :
    Spells (text ++ ',' :: (List.replicate gap ' ' ++ other))
      (kinds ++ .symbol .comma :: more) := by
  intro rest behind hrest hr
  have hbehind : Lexes (Symbol.comma.spelling ++ (List.replicate gap ' ' ++ other ++ rest))
      (.symbol .comma :: (more ++ behind)) :=
    Lexes.symbol_append nofun (ho.spaces gap rest behind hrest hr)
  have hall := h _ _ (fun c hc => by obtain rfl := Option.some.inj hc; rfl) hbehind
  simpa [Symbol.spelling] using hall

end Spells

/-- An operand: a term, if that is written in parentheses, or else one that stands by itself. -/
def Operand (parameters : List String) (limit : Nat) (enclosed : Bool) : Reading :=
  if enclosed then Derives parameters limit else Stands parameters limit

variable {parameters : List String} {limit : Nat} {enclosed : Bool} {text : List Char}
  {kinds : List TokenKind} {term : Term}

theorem Operand.derives (h : Operand parameters limit enclosed kinds term) :
    Derives parameters limit kinds term := by
  cases enclosed with
  | true => exact h
  | false => exact Stands.derives h

/-- An operand in its parentheses, if it has some, stands by itself. -/
theorem Operand.enclose (h : Operand parameters limit enclosed kinds term)
    (ht : Spells text kinds) :
    ∃ tokens, Spells (enclose enclosed text) tokens ∧
      Stands parameters (limit + enclosed.toNat) tokens term := by
  cases enclosed with
  | true => exact ⟨_, ht.group, Derives.group h⟩
  | false => exact ⟨_, ht, h⟩

end Arithmetic

section Writing
variable (gap : Nat)

mutual
def Formula.arithmetic (count : Nat) : Formula → List Char
  | .decimal whole none => whole
  | .decimal whole (some fraction) => whole ++ '.' :: fraction
  | .constant known => known.name.toList
  | .unary op operand =>
    op.symbol.spelling ++ enclose operand.isOperation (operand.arithmetic count)
  | .binary op left right =>
    enclose left.isOperation (left.arithmetic count) ++
      (' ' :: op.symbol.spelling ++ ' ' ::
        enclose right.isOperation (right.arithmetic (count + left.calls.length)))
  | .builtin function arguments =>
    function.name.toList ++ parenthesized gap (Formula.arithmeticAll count arguments)
  | .call _ _ => (variableName (count + 1)).toList

def Formula.arithmeticAll (count : Nat) : List Formula → List (List Char)
  | [] => []
  | formula :: rest =>
    formula.arithmetic count :: Formula.arithmeticAll (count + formula.calls.length) rest
end

end Writing

mutual
/-- The term of a formula whose calls are the variables behind the first `count` ones. -/
def Formula.term (count : Nat) : Formula → Term
  | .decimal whole fraction => .number (decimalValue whole (fraction.getD []))
  | .constant known => .number known.value
  | .unary op operand => .unary op (operand.term count)
  | .binary op left right =>
    .binary op (left.term count) (right.term (count + left.calls.length))
  | .builtin function arguments => .call function (Formula.termAll count arguments)
  | .call _ _ => .var count

def Formula.termAll (count : Nat) : List Formula → List Term
  | [] => []
  | formula :: rest => formula.term count :: Formula.termAll (count + formula.calls.length) rest
end

mutual
/-- The term is worth what the formula is worth, with the same values for the calls. -/
theorem Formula.evaluate_term (values : List Float) (count : Nat) : (formula : Formula) →
    (formula.term count).evaluate values = formula.evaluate (values.drop count)
  | .decimal _ _ | .constant _ => rfl
  | .unary op operand => by
    rw [term, Term.evaluate, evaluate_term values count operand, evaluate]
  | .binary op left right => by
    rw [term, Term.evaluate, evaluate_term values count left, evaluate_term values _ right,
      evaluate, List.drop_drop]
  | .builtin function arguments => by
    rw [term, Term.evaluate, evaluateAll_termAll values count arguments, evaluate]
  | .call _ _ => by
    rw [term, Term.evaluate, evaluate, ← List.head?_drop]
    cases values.drop count <;> rfl

theorem Formula.evaluateAll_termAll (values : List Float) (count : Nat) :
    (formulas : List Formula) → Term.evaluateAll values (Formula.termAll count formulas) =
      Formula.evaluateAll (values.drop count) formulas
  | [] => rfl
  | formula :: rest => by
    rw [termAll, Term.evaluateAll, evaluate_term values count formula,
      evaluateAll_termAll values _ rest, evaluateAll, List.drop_drop]
end

theorem Formula.length_termAll (count : Nat) (formulas : List Formula) :
    (Formula.termAll count formulas).length = formulas.length := by
  induction formulas generalizing count with
  | nil => rfl
  | cons formula rest ih => exact congrArg (· + 1) (ih _)

/-- Where an operand starts, no symbol goes on. -/
theorem Formula.head_arithmetic {world : World} (gap count : Nat) {formula : Formula}
    (hf : formula.Fits world) :
    ∃ c rest, enclose formula.isOperation (formula.arithmetic gap count) = c :: rest ∧
      c ≠ '=' := by
  have hname {text : List Char} (h : isIdentifier text = true) :
      ∃ c rest, text = c :: rest ∧ c ≠ '=' := by
    obtain ⟨c, rest, rfl, hc, -⟩ := exists_of_isIdentifier h
    refine ⟨c, rest, rfl, ?_⟩
    rintro rfl
    cases hc
  have hdigits {text : List Char} (hne : text ≠ []) (h : ∀ c ∈ text, c.isDigit = true) :
      ∃ c rest, text = c :: rest ∧ c ≠ '=' := by
    obtain ⟨c, rest, rfl⟩ := List.exists_cons_of_ne_nil hne
    refine ⟨c, rest, rfl, ?_⟩
    rintro rfl
    cases h _ List.mem_cons_self
  match formula with
  | .decimal whole none => exact hdigits hf.1.1 hf.1.2
  | .decimal whole (some fraction) =>
    obtain ⟨c, rest, hw, hc⟩ := hdigits hf.1.1 hf.1.2
    exact ⟨c, rest ++ '.' :: fraction, congrArg (· ++ '.' :: fraction) hw, hc⟩
  | .constant known => exact hname known.isIdentifier_name
  | .unary .. | .binary .. => exact ⟨'(', _, rfl, by decide⟩
  | .builtin function arguments =>
    obtain ⟨c, rest, hw, hc⟩ := hname (isIdentifier_builtin function)
    exact ⟨c, _, congrArg (· ++ parenthesized gap (arithmeticAll gap count arguments)) hw, hc⟩
  | .call .. => exact hname (isIdentifier_variableName (count + 1))

section Reading
variable {world : World} {gap total : Nat}

private theorem Formula.reads_builtin {function : Builtin} {arguments : List Formula}
    {limit count : Nat} {kinds : List TokenKind} (hn : function.accepts arguments.length = true)
    (hs : Spells (listed gap (Formula.arithmeticAll gap count arguments)) kinds)
    (ha : Reading.Arguments (Derives (variableNames total) limit) kinds
      (Formula.termAll count arguments)) :
    ∃ kinds, Spells (Formula.arithmetic gap count (.builtin function arguments)) kinds ∧
      Operand (variableNames total) (limit + 1) false kinds
        (Formula.term count (.builtin function arguments)) := by
  have hname := Spells.identifier (isIdentifier_builtin function)
  rw [String.ofList_toList] at hname
  refine ⟨_, hname.append hs.group (List.cons_ne_nil _ _) fun c hm => ?_,
    .call (Builtin.ofName?_name function) ha ?_⟩
  · obtain rfl := Option.some.inj hm
    rfl
  · rw [Formula.length_termAll]
    exact hn

mutual
/-- What is left of a formula is read as its term, if all its levels may nest. -/
theorem Formula.reads : (formula : Formula) → (limit count : Nat) → formula.Fits world →
    formula.levels ≤ limit → count + formula.calls.length ≤ total →
      ∃ kinds, Spells (formula.arithmetic gap count) kinds ∧
        Operand (variableNames total) limit formula.isOperation kinds (formula.term count)
  | .decimal whole none, limit, count, hf, _, _ =>
    ⟨_, .digits hf.1.1 hf.1.2, .number _⟩
  | .decimal whole (some fraction), limit, count, hf, _, _ =>
    ⟨_, .decimal hf.1.1 hf.1.2 (hf.2 fraction rfl).2, .number _⟩
  | .constant known, limit, count, _, _, _ => by
    have hs := Spells.identifier known.isIdentifier_name
    rw [String.ofList_toList] at hs
    have hr : isReserved known.name = true := by cases known <;> decide
    exact ⟨_, hs, .constant (idxOf?_variableNames_eq_none hr) known.constant?_name⟩
  | .unary op operand, limit, count, hf, hl, hc => by
    rw [levels] at hl
    obtain ⟨limit, rfl⟩ := Nat.exists_eq_add_of_le' (Nat.le_of_add_left_le hl)
    obtain ⟨kinds, hs, ho⟩ := reads operand operand.levels count hf (Nat.le_refl _) hc
    obtain ⟨tokens, hspells, hstands⟩ := ho.enclose hs
    have hoperand : operand.Fits world := hf
    obtain ⟨c, rest, hhead, hne⟩ := head_arithmetic gap count hoperand
    refine ⟨_, hspells.cons_symbol (fun _ => ?_) ?_,
      Derives.unary (hstands.mono (Nat.le_of_add_le_add_right hl))⟩
    · rw [hhead]
      simpa using hne
    · rw [hhead]
      exact List.cons_ne_nil _ _
  | .binary op left right, limit, count, hf, hl, hc => by
    rw [levels] at hl
    rw [calls, List.length_append] at hc
    have hleft := Nat.le_trans (Nat.le_max_left _ _) hl
    have hright := Nat.le_trans (Nat.le_max_right _ _) hl
    -- Both sides are read at their own levels, since an exponent has one level less than its base.
    obtain ⟨kinds, hs, ho⟩ := reads left left.levels count hf.1 (Nat.le_refl _) (by omega)
    obtain ⟨more, hm, hb⟩ := reads right right.levels (count + left.calls.length) hf.2
      (Nat.le_refl _) (by omega)
    obtain ⟨tokens, hspells, hstands⟩ := ho.enclose hs
    obtain ⟨others, hothers, hbehind⟩ := hb.enclose hm
    refine ⟨_, hspells.binary op hothers, ?_⟩
    by_cases hop : op = .power
    · subst hop
      obtain ⟨limit, rfl⟩ := Nat.exists_eq_add_of_le' (Nat.le_of_add_left_le hright)
      exact Derives.power (hstands.mono hleft) (hbehind.mono (Nat.le_of_add_le_add_right hright))
    · exact Derives.binary hop (hstands.mono hleft)
        (hbehind.mono (Nat.le_of_add_right_le hright))
  | .builtin function arguments, limit, count, hf, hl, hc => by
    rw [levels] at hl
    obtain ⟨limit, rfl⟩ := Nat.exists_eq_add_of_le' (Nat.le_of_add_left_le hl)
    have hl' := Nat.le_of_add_le_add_right hl
    cases arguments with
    | nil =>
      have hs : Spells (listed gap (arithmeticAll gap count [])) [] := fun _ _ _ h => h
      exact reads_builtin hf.1 hs .none
    | cons formula rest =>
      obtain ⟨kinds, hs, ha⟩ := readsAll (formula :: rest) (List.cons_ne_nil _ _) limit count hf.2
        hl' hc
      exact reads_builtin hf.1 hs (.some ha)
  | .call callable arguments, limit, count, _, _, hc => by
    have hs := Spells.identifier (isIdentifier_variableName (count + 1))
    rw [String.ofList_toList] at hs
    exact ⟨_, hs, .parameter (idxOf?_variableNames.mpr ⟨hc, rfl⟩)⟩

/-- Formulas with commas between them are read as their terms. -/
theorem Formula.readsAll : (formulas : List Formula) → formulas ≠ [] → (limit count : Nat) →
    Formula.FitsAll world formulas → Formula.levelsAll formulas ≤ limit →
      count + (Formula.callsAll formulas).length ≤ total →
        ∃ kinds, Spells (listed gap (Formula.arithmeticAll gap count formulas)) kinds ∧
          Reading.Listed (Derives (variableNames total) limit) kinds
            (Formula.termAll count formulas)
  | [], hne, _, _, _, _, _ => absurd rfl hne
  | [formula], _, limit, count, hf, hl, hc => by
    rw [levelsAll, levelsAll, Nat.max_zero] at hl
    rw [callsAll, callsAll, List.append_nil] at hc
    obtain ⟨kinds, hs, ho⟩ := reads formula limit count hf.1 hl hc
    refine ⟨kinds, ?_, .last ho.derives⟩
    simpa [arithmeticAll, listed, Source.commaSeparated] using hs
  | formula :: next :: rest, _, limit, count, hf, hl, hc => by
    rw [levelsAll] at hl
    rw [callsAll, List.length_append] at hc
    obtain ⟨kinds, hs, ho⟩ := reads formula limit count hf.1
      (Nat.le_trans (Nat.le_max_left _ _) hl) (by omega)
    obtain ⟨more, hm, hb⟩ := readsAll (next :: rest) (List.cons_ne_nil _ _) limit
      (count + formula.calls.length) hf.2 (Nat.le_trans (Nat.le_max_right _ _) hl) (by omega)
    refine ⟨_, ?_, .more ho.derives hb⟩
    have hcomma := hs.comma gap hm
    simpa [arithmeticAll, listed, Source.commaSeparated] using hcomma
end

end Reading
end SceneFormula
