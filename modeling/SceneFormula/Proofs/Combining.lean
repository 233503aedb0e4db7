import SceneFormula.Call.Callee
import SceneFormula.Proofs.Lexing
import SceneFormula.Proofs.Variables

/-! Terms put together from operands, and the levels that this takes: an operand stands by itself
or in parentheses, and an exponent is one level deeper than what it is the exponent of. -/
namespace SceneFormula.Arithmetic

def Operator.symbol : Operator → Symbol
  | add => .plus
  | subtract => .minus
  | multiply => .star
  | divide => .slash
  | modulo => .percent
  | power => .caret
  | equal => .equal
  | notEqual => .notEqual
  | less => .less
  | lessOrEqual => .lessOrEqual
  | greater => .greater
  | greaterOrEqual => .greaterOrEqual
  | and => .and
  | or => .or

def Sign.symbol : Sign → Symbol
  | negate => .minus
  | not => .bang

/-- What the symbol is written in ends names, but opens no call and means nothing in lists. -/
def Symbol.Divides (symbol : Symbol) : Prop :=
  ∀ c ∈ symbol.spelling, c ∈ Source.separators ∧ Callee.isMark c = false ∧
    Callee.endsMember c = false ∧ c ∉ ['"', '(', ')', ',', '\\'] ∧ c ≠ ' '

theorem Operator.divides (op : Operator) : op.symbol.Divides := by
  cases op <;> simp [Symbol.Divides, symbol, Symbol.spelling, Source.separators, Callee.isMark,
    Callee.endsMember]

theorem Sign.divides (op : Sign) : op.symbol.Divides := by
  cases op <;> simp [Symbol.Divides, symbol, Symbol.spelling, Source.separators, Callee.isMark,
    Callee.endsMember]

/-- The tokens make up an operand of a term in which at most `limit` levels nest. -/
def Stands (parameters : List String) (limit : Nat) : Reading :=
  Reading.Primary parameters (Readings.levels parameters limit).whole

namespace Reading
variable {signed : Reading} {kinds more : List TokenKind} {left right : Term}

theorem chains_of_signed (h : signed kinds left) : chains signed kinds left :=
  .one (.one (.one (.one (.one (.one h)))))

/-- Every operator but the power joins two signed terms. -/
theorem chains_binary {op : Operator} (hop : op ≠ .power) (hl : signed kinds left)
    (hr : signed more right) :
    chains signed (kinds ++ .symbol op.symbol :: more) (.binary op left right) := by
  have hl1 : Chain Grammar.productOp signed kinds left := .one hl
  have hr1 : Chain Grammar.productOp signed more right := .one hr
  have hl2 : Chain Grammar.sumOp _ kinds left := .one hl1
  have hr2 : Chain Grammar.sumOp _ more right := .one hr1
  have hl3 : Chain Grammar.orderOp _ kinds left := .one hl2
  have hr3 : Chain Grammar.orderOp _ more right := .one hr2
  have hl4 : Chain Grammar.equalityOp _ kinds left := .one hl3
  have hr4 : Chain Grammar.equalityOp _ more right := .one hr3
  have hl5 : Chain Grammar.andOp _ kinds left := .one hl4
  have hr5 : Chain Grammar.andOp _ more right := .one hr4
  cases op with
  | power => exact absurd rfl hop
  | multiply | divide | modulo => exact .one (.one (.one (.one (.one (.more hl1 rfl hr)))))
  | add | subtract => exact .one (.one (.one (.one (.more hl2 rfl hr1))))
  | less | lessOrEqual | greater | greaterOrEqual => exact .one (.one (.one (.more hl3 rfl hr2)))
  | equal | notEqual => exact .one (.one (.more hl4 rfl hr3))
  | and => exact .one (.more hl5 rfl hr4)
  | or => exact .more (.one hl5) rfl hr5

end Reading

variable {parameters : List String} {limit : Nat} {kinds more : List TokenKind}
  {term left right : Term}

theorem Stands.signed (h : Stands parameters limit kinds term) :
    (Readings.levels parameters (limit + 1)).signed kinds term :=
  .power (.base h)

theorem Stands.derives (h : Stands parameters limit kinds term) :
    Derives parameters limit kinds term :=
  Reading.chains_of_signed h.signed

/-- A term in parentheses is an operand one level higher. -/
theorem Derives.group (h : Derives parameters limit kinds term) :
    Stands parameters (limit + 1)
      (.symbol .openParen :: (kinds ++ [.symbol .closeParen])) term :=
  .group h

theorem Derives.binary {op : Operator} (hop : op ≠ .power) (hl : Stands parameters limit kinds left)
    (hr : Stands parameters limit more right) :
    Derives parameters limit (kinds ++ .symbol op.symbol :: more) (.binary op left right) :=
  Reading.chains_binary hop hl.signed hr.signed

theorem Derives.power (hl : Stands parameters (limit + 1) kinds left)
    (hr : Stands parameters limit more right) :
    Derives parameters (limit + 1) (kinds ++ .symbol Operator.power.symbol :: more)
      (.binary .power left right) :=
  Reading.chains_of_signed (.power (.raised hl hr.signed))

theorem Derives.unary {op : Sign} (h : Stands parameters limit kinds term) :
    Derives parameters (limit + 1) (.symbol op.symbol :: kinds) (.unary op term) := by
  cases op with
  | negate => exact Reading.chains_of_signed (.negate h.signed)
  | not => exact Reading.chains_of_signed (.not h.signed)

/-- What makes up a term does so where more levels may nest. -/
theorem Derives.mono {others : Nat} (hl : limit ≤ others)
    (h : Derives parameters limit kinds term) : Derives parameters others kinds term :=
  (Renaming.refl parameters).derives_id hl h

theorem Stands.mono {others : Nat} (hl : limit ≤ others) (h : Stands parameters limit kinds term) :
    Stands parameters others kinds term := by
  have hr := Renaming.refl parameters
  have hd := hr.primary (hr.levels limit others hl).1 kinds term h
  rwa [TokenKind.map_rename_id, Term.renumber_id] at hd

/-- Two terms in parentheses are joined by any operator, at the cost of two levels. -/
theorem Derives.joined (op : Operator) (hl : Derives parameters limit kinds left)
    (hr : Derives parameters limit more right) :
    Derives parameters (limit + 2)
      (.symbol .openParen :: (kinds ++ [.symbol .closeParen]) ++
        .symbol op.symbol :: .symbol .openParen :: (more ++ [.symbol .closeParen]))
      (.binary op left right) := by
  by_cases hop : op = .power
  · subst hop
    exact .power (hl.group.mono (Nat.le_succ _)) hr.group
  · exact .binary hop (hl.group.mono (Nat.le_succ _)) (hr.group.mono (Nat.le_succ _))

/-- The spelling of a symbol is read as that symbol, if no `=` behind it makes it another one. -/
theorem Lexes.symbol_append {symbol : Symbol} {rest : List Char}
    (h : symbol.takesEqual = true → rest.head? ≠ some '=') (hr : Lexes rest kinds) :
    Lexes (symbol.spelling ++ rest) (.symbol symbol :: kinds) := by
  obtain ⟨c, text, ht⟩ : ∃ c text, symbol.spelling = c :: text := by
    cases symbol <;> exact ⟨_, _, rfl⟩
  have hc : Source.isBlank c = false ∧ c.isDigit = false ∧ isNameStart c = false := by
    cases symbol <;> obtain ⟨rfl, _⟩ := List.cons.inj ht <;> decide
  have hl : Lexeme.read? (c :: (text ++ rest)) = some ⟨.symbol symbol, symbol.spelling, rest⟩ := by
    rw [Lexeme.read?, hc.2.1, hc.2.2, ← List.cons_append, ← ht, Symbol.read?_spelling h]
    rfl
  rw [ht]
  exact .lexeme hc.1 hl hr

theorem Lexes.symbol (symbol : Symbol) : Lexes symbol.spelling [.symbol symbol] := by
  have h : Lexes (symbol.spelling ++ []) [.symbol symbol] :=
    Lexes.symbol_append (fun _ => by simp) .done
  rwa [List.append_nil] at h

/-- Parentheses never join the characters beside them. -/
theorem joins_paren (c : Char) : joins '(' c = false ∧ joins c '(' = false ∧
    joins ')' c = false ∧ joins c ')' = false := by
  have ho : isNamePart '(' = false := rfl
  have hc : isNamePart ')' = false := rfl
  refine ⟨?_, ?_, ?_, ?_⟩ <;> simp [joins, ho, hc]

/-- A text in parentheses is read between its parentheses. -/
theorem Lexes.group {text : List Char} {kinds : List TokenKind} (h : Lexes text kinds) :
    Lexes ('(' :: (text ++ [')'])) (.symbol .openParen :: (kinds ++ [.symbol .closeParen])) := by
  have hinner : Lexes (text ++ [')']) (kinds ++ [.symbol .closeParen]) :=
    h.append (.symbol .closeParen) fun a _ b hb => by
      obtain rfl : ')' = b := by simpa using hb
      exact (joins_paren a).2.2.2
  exact Lexes.append (.symbol .openParen) hinner fun a ha b _ => by
    obtain rfl : '(' = a := by simpa [Symbol.spelling] using ha
    exact (joins_paren b).1

/-- Two texts in parentheses are read on both sides of an operator. -/
theorem Lexes.joined (op : Operator) {text other : List Char} {kinds more : List TokenKind}
    (h : Lexes text kinds) (ho : Lexes other more) :
    Lexes ('(' :: (text ++ [')']) ++ (op.symbol.spelling ++ '(' :: (other ++ [')'])))
      (.symbol .openParen :: (kinds ++ [.symbol .closeParen]) ++
        .symbol op.symbol :: .symbol .openParen :: (more ++ [.symbol .closeParen])) := by
  have hbehind : Lexes (op.symbol.spelling ++ '(' :: (other ++ [')']))
      (.symbol op.symbol :: .symbol .openParen :: (more ++ [.symbol .closeParen])) :=
    (Lexes.symbol op.symbol).append ho.group fun a _ b hb => by
      obtain rfl : '(' = b := by simpa using hb
      exact (joins_paren a).2.1
  refine h.group.append hbehind fun a ha b _ => ?_
  rw [← List.cons_append, List.getLast?_concat] at ha
  obtain rfl : ')' = a := by simpa using ha
  exact (joins_paren b).2.2.1

end SceneFormula.Arithmetic
