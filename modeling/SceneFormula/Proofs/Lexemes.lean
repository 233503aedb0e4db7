import SceneFormula.Proofs.TokenOffsets

/-! What tokens are written as. The lexeme at the start of a text is the longest of these writings
that the text starts with, and there is none only where no writing starts the text. -/
namespace SceneFormula.Arithmetic
open Source (isBlank)

/-- What a token is written as: a number as digits with at most one point, but no point first; a
name as letters, digits and underscores, but no digit first; and a symbol as it is spelled. -/
inductive Writes : TokenKind → List Char → Prop
  | whole {digits : List Char} (hne : digits ≠ []) (hd : ∀ c ∈ digits, c.isDigit = true) :
    Writes (.number (decimalValue digits [])) digits
  | pointed {whole fraction : List Char} (hne : whole ≠ []) (hw : ∀ c ∈ whole, c.isDigit = true)
    (hf : ∀ c ∈ fraction, c.isDigit = true) :
    Writes (.number (decimalValue whole fraction)) (whole ++ '.' :: fraction)
  | name {c : Char} {rest : List Char} (hc : isNameStart c = true)
    (hr : ∀ d ∈ rest, isNamePart d = true) : Writes (.name (String.ofList (c :: rest))) (c :: rest)
  | symbol (symbol : Symbol) : Writes (.symbol symbol) symbol.spelling

def Starts (text : List Char) : Prop :=
  ∃ kind lexeme, Writes kind lexeme ∧ lexeme <+: text

/-- Whether no longer writing of a token starts where a lexeme with this rest behind it does. -/
def Longest (lexeme rest : List Char) : Prop :=
  ∀ kind other, Writes kind other → other <+: lexeme ++ rest → other.length ≤ lexeme.length

namespace Writes
variable {kind other : TokenKind} {lexeme : List Char}

theorem ne_nil (h : Writes kind lexeme) : lexeme ≠ [] := by
  cases h with
  | whole hne => exact hne
  | pointed => simp
  | name => exact List.cons_ne_nil _ _
  | symbol symbol => cases symbol <;> exact List.cons_ne_nil _ _

/-- A writing of a token is its own lexeme. -/
theorem read?_eq (h : Writes kind lexeme) : Lexeme.read? lexeme = some ⟨kind, lexeme, []⟩ := by
  cases h with
  | whole hne hd =>
    obtain ⟨c, digits, rfl⟩ := List.exists_cons_of_ne_nil hne
    have hnumber := @number_plain (c :: digits) [] hd nofun nofun
    rw [List.append_nil] at hnumber
    rw [Lexeme.read?, if_pos (hd c List.mem_cons_self), hnumber]
  | @pointed whole fraction hne hw hf =>
    obtain ⟨c, digits, rfl⟩ := List.exists_cons_of_ne_nil hne
    have hnumber := @number_pointed (c :: digits) fraction [] hw hf nofun
    rw [List.append_nil, List.cons_append] at hnumber
    rw [List.cons_append, Lexeme.read?, if_pos (hw c List.mem_cons_self), hnumber]
  | @name c rest hc hr =>
    have hparts : ∀ d ∈ c :: rest, isNamePart d = true :=
      List.forall_mem_cons.mpr ⟨isNamePart_of_isNameStart hc, hr⟩
    obtain ⟨ht, hd⟩ := @while_eq isNamePart (c :: rest) [] hparts nofun
    rw [List.append_nil] at ht hd
    rw [Lexeme.read?, if_neg (by simp [not_isDigit_of_isNameStart hc]), if_pos hc, Lexeme.name, ht,
      hd]
  | symbol symbol => cases symbol <;> rfl

private theorem prefix_number {digits : List Char} (hd : ∀ c ∈ digits, c.isDigit = true)
    (rest : List Char) : digits <+: (Lexeme.number (digits ++ rest)).text := by
  unfold Lexeme.number
  rw [List.takeWhile_append_of_pos hd]
  split
  · exact (List.prefix_append _ _).trans (List.prefix_append _ _)
  · exact List.prefix_append _ _

private theorem prefix_number_pointed {whole fraction : List Char}
    (hw : ∀ c ∈ whole, c.isDigit = true) (hf : ∀ c ∈ fraction, c.isDigit = true)
    (rest : List Char) :
    whole ++ '.' :: fraction <+: (Lexeme.number (whole ++ '.' :: (fraction ++ rest))).text := by
  obtain ⟨digits, more, rfl, hdigits, hmore⟩ := exists_while Char.isDigit rest
  have hall : ∀ c ∈ fraction ++ digits, c.isDigit = true := fun c hc =>
    (List.mem_append.mp hc).elim (hf c) (hdigits c)
  rw [← List.append_assoc fraction, number_pointed hw hall hmore]
  exact ⟨digits, by simp⟩

private theorem prefix_symbol (symbol : Symbol) (rest : List Char) :
    ∃ found behind, Symbol.read? (symbol.spelling ++ rest) = some (found, behind) ∧
      symbol.spelling <+: found.spelling := by
  by_cases hs : symbol.takesEqual = true ∧ rest.head? = some '='
  · obtain ⟨ht, hhead⟩ := hs
    obtain ⟨more, rfl⟩ := List.head?_eq_some_iff.mp hhead
    cases symbol <;> simp [Symbol.takesEqual] at ht <;> exact ⟨_, more, rfl, by decide⟩
  · exact ⟨symbol, rest, Symbol.read?_spelling fun ht he => hs ⟨ht, he⟩, List.prefix_rfl⟩

/-- Where the writing of a token starts a text, the lexeme there is at least as long. -/
theorem exists_read? (h : Writes kind lexeme) (rest : List Char) :
    ∃ found, Lexeme.read? (lexeme ++ rest) = some found ∧ lexeme <+: found.text := by
  cases h with
  | whole hne hd =>
    obtain ⟨c, digits, rfl⟩ := List.exists_cons_of_ne_nil hne
    refine ⟨_, ?_, prefix_number hd rest⟩
    rw [List.cons_append, Lexeme.read?, if_pos (hd c List.mem_cons_self)]
  | @pointed whole fraction hne hw hf =>
    obtain ⟨c, digits, rfl⟩ := List.exists_cons_of_ne_nil hne
    refine ⟨_, ?_, prefix_number_pointed hw hf rest⟩
    rw [List.append_assoc, List.cons_append, List.cons_append, Lexeme.read?,
      if_pos (hw c List.mem_cons_self), List.cons_append]
  | @name c name hc hr =>
    have hparts : ∀ d ∈ c :: name, isNamePart d = true :=
      List.forall_mem_cons.mpr ⟨isNamePart_of_isNameStart hc, hr⟩
    refine ⟨Lexeme.name (c :: name ++ rest), ?_, ?_⟩
    · rw [List.cons_append, Lexeme.read?, if_neg (by simp [not_isDigit_of_isNameStart hc]),
        if_pos hc]
    · rw [Lexeme.name, List.takeWhile_append_of_pos hparts]
      exact List.prefix_append _ _
  | symbol symbol =>
    obtain ⟨found, behind, hr, hp⟩ := prefix_symbol symbol rest
    refine ⟨⟨.symbol found, found.spelling, behind⟩, ?_, hp⟩
    have hsymbol : Lexeme.read? (symbol.spelling ++ rest) =
        (Symbol.read? (symbol.spelling ++ rest)).map fun found =>
          ⟨.symbol found.1, found.1.spelling, found.2⟩ := by cases symbol <;> rfl
    rw [hsymbol, hr, Option.map_some]

end Writes

namespace Lexeme
variable {text : List Char} {lexeme : Lexeme}

/-- The lexeme of a text is the writing of its token. -/
theorem writes_of_read? (h : read? text = some lexeme) : Writes lexeme.kind lexeme.text := by
  unfold read? at h
  split at h
  · cases h
  · rename_i c rest
    split at h
    · rename_i hc
      obtain rfl := Option.some.inj h
      obtain ⟨digits, tail, rfl, hdigits, htail⟩ := exists_while Char.isDigit rest
      have hwhole : ∀ d ∈ c :: digits, d.isDigit = true := List.forall_mem_cons.mpr ⟨hc, hdigits⟩
      have hne : c :: digits ≠ [] := List.cons_ne_nil _ _
      rw [← List.cons_append]
      by_cases hdot : ∃ behind, tail = '.' :: behind
      · obtain ⟨behind, rfl⟩ := hdot
        obtain ⟨fraction, more, rfl, hfraction, hmore⟩ := exists_while Char.isDigit behind
        rw [number_pointed hwhole hfraction hmore]
        exact .pointed hne hwhole hfraction
      · rw [number_plain hwhole htail fun behind he => hdot ⟨behind, he⟩]
        exact .whole hne hwhole
    · split at h
      · rename_i hc
        obtain rfl := Option.some.inj h
        have hname : (c :: rest).takeWhile isNamePart = c :: rest.takeWhile isNamePart :=
          List.takeWhile_cons_of_pos (isNamePart_of_isNameStart hc)
        simp only [name, hname]
        exact .name hc fun d hd => List.mem_takeWhile_imp hd
      · obtain ⟨⟨symbol, behind⟩, hs, rfl⟩ := Option.map_eq_some_iff.mp h
        exact .symbol symbol

/-- Nothing is read only where no token is written. -/
theorem read?_eq_none_iff : read? text = none ↔ ¬ Starts text := by
  constructor
  · rintro h ⟨kind, lexeme, hs, rest, rfl⟩
    obtain ⟨found, hf, -⟩ := hs.exists_read? rest
    rw [h] at hf
    cases hf
  · intro h
    cases hr : read? text with
    | none => rfl
    | some lexeme =>
      exact absurd ⟨_, _, writes_of_read? hr, lexeme.rest, read?_append hr⟩ h

end Lexeme

end SceneFormula.Arithmetic
