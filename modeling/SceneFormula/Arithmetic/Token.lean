import SceneFormula.Arithmetic.SyntaxFault
import SceneFormula.Source.Basic
import SceneFormula.Source.Blank
import SceneFormula.Source.Digits

/-! The tokens of arithmetic. A text is cut from the left into the longest lexemes there are, with
blanks between them, and every token keeps the byte offset of its lexeme. -/
namespace SceneFormula.Arithmetic
open Source (digitsValue isBlank width)

inductive Symbol where
  | plus | minus | star | slash | percent | caret | openParen | closeParen | comma | bang
  | equal | notEqual | less | lessOrEqual | greater | greaterOrEqual | and | or
  deriving DecidableEq, Repr

namespace Symbol

def spelling : Symbol → List Char
  | plus => ['+'] | minus => ['-'] | star => ['*'] | slash => ['/'] | percent => ['%']
  | caret => ['^'] | openParen => ['('] | closeParen => [')'] | comma => [','] | bang => ['!']
  | equal => ['=', '='] | notEqual => ['!', '='] | less => ['<'] | lessOrEqual => ['<', '=']
  | greater => ['>'] | greaterOrEqual => ['>', '='] | and => ['&', '&'] | or => ['|', '|']

def label : Symbol → String
  | plus => "Plus" | minus => "Minus" | star => "Star" | slash => "Slash"
  | percent => "Percent" | caret => "Caret" | openParen => "LParen" | closeParen => "RParen"
  | comma => "Comma" | bang => "Bang" | equal => "EqEq" | notEqual => "NotEq" | less => "Lt"
  | lessOrEqual => "Lte" | greater => "Gt" | greaterOrEqual => "Gte" | and => "AndAnd"
  | or => "OrOr"

def read? : List Char → Option (Symbol × List Char)
  | '=' :: '=' :: rest => some (equal, rest)
  | '!' :: '=' :: rest => some (notEqual, rest)
  | '<' :: '=' :: rest => some (lessOrEqual, rest)
  | '>' :: '=' :: rest => some (greaterOrEqual, rest)
  | '&' :: '&' :: rest => some (and, rest)
  | '|' :: '|' :: rest => some (or, rest)
  | '+' :: rest => some (plus, rest)
  | '-' :: rest => some (minus, rest)
  | '*' :: rest => some (star, rest)
  | '/' :: rest => some (slash, rest)
  | '%' :: rest => some (percent, rest)
  | '^' :: rest => some (caret, rest)
  | '(' :: rest => some (openParen, rest)
  | ')' :: rest => some (closeParen, rest)
  | ',' :: rest => some (comma, rest)
  | '!' :: rest => some (bang, rest)
  | '<' :: rest => some (less, rest)
  | '>' :: rest => some (greater, rest)
  | _ => none

theorem read?_eq {symbol : Symbol} {text rest : List Char}
    (h : read? text = some (symbol, rest)) : text = symbol.spelling ++ rest := by
  unfold read? at h
  split at h <;> simp only [Option.some.injEq, Prod.mk.injEq, reduceCtorEq] at h <;>
    obtain ⟨rfl, rfl⟩ := h <;> rfl

end Symbol

def isNameStart (c : Char) : Bool :=
  c.isAlpha || c == '_'

def isNamePart (c : Char) : Bool :=
  c.isAlphanum || c == '_'

def decimalValue (whole fraction : List Char) : Float :=
  .ofScientific (digitsValue (whole ++ fraction)) true fraction.length

inductive TokenKind where
  | number (value : Float)
  | name (text : String)
  | symbol (symbol : Symbol)

structure Token where
  kind : TokenKind
  position : Nat

structure Lexeme where
  kind : TokenKind
  text : List Char
  rest : List Char

namespace Lexeme

/-- The lexeme of a number: digits, and after a first point more digits or none. -/
def number (text : List Char) : Lexeme :=
  let whole := text.takeWhile Char.isDigit
  match text.dropWhile Char.isDigit with
  | '.' :: behind =>
    let fraction := behind.takeWhile Char.isDigit
    ⟨.number (decimalValue whole fraction), whole ++ '.' :: fraction,
      behind.dropWhile Char.isDigit⟩
  | rest => ⟨.number (decimalValue whole []), whole, rest⟩

def name (text : List Char) : Lexeme :=
  let written := text.takeWhile isNamePart
  ⟨.name (String.ofList written), written, text.dropWhile isNamePart⟩

def read? : List Char → Option Lexeme
  | [] => none
  | c :: rest =>
    if c.isDigit then some (number (c :: rest))
    else if isNameStart c then some (name (c :: rest))
    else (Symbol.read? (c :: rest)).map fun (symbol, behind) =>
      ⟨.symbol symbol, symbol.spelling, behind⟩

theorem number_append (text : List Char) : (number text).text ++ (number text).rest = text := by
  unfold number
  split
  · rename_i behind h
    simp only [List.append_assoc, List.cons_append, List.takeWhile_append_dropWhile]
    rw [← h, List.takeWhile_append_dropWhile]
  · exact List.takeWhile_append_dropWhile

theorem name_append (text : List Char) : (name text).text ++ (name text).rest = text :=
  List.takeWhile_append_dropWhile

/-- A lexeme and the text behind it make up the text. -/
theorem read?_append {text : List Char} {lexeme : Lexeme} (h : read? text = some lexeme) :
    lexeme.text ++ lexeme.rest = text := by
  unfold read? at h
  split at h
  · simp at h
  · rename_i c rest
    split at h
    · exact Option.some.inj h ▸ number_append _
    · split at h
      · exact Option.some.inj h ▸ name_append _
      · obtain ⟨⟨symbol, behind⟩, hs, rfl⟩ := Option.map_eq_some_iff.mp h
        exact (Symbol.read?_eq hs).symm

/-- A lexeme is not empty. -/
theorem read?_text_ne_nil {text : List Char} {lexeme : Lexeme} (h : read? text = some lexeme) :
    lexeme.text ≠ [] := by
  unfold read? at h
  split at h
  · simp at h
  · rename_i c rest
    split at h
    · rename_i hc
      obtain rfl := Option.some.inj h
      unfold number
      split <;> simp [hc]
    · split at h
      · rename_i hc
        obtain rfl := Option.some.inj h
        have : isNamePart c = true := by
          simp only [isNameStart, isNamePart, Char.isAlphanum, Bool.or_eq_true] at hc ⊢
          exact hc.imp_left Or.inl
        simp [name, this]
      · obtain ⟨⟨symbol, behind⟩, hs, rfl⟩ := Option.map_eq_some_iff.mp h
        cases symbol <;> simp [Symbol.spelling]

theorem read?_length {text : List Char} {lexeme : Lexeme} (h : read? text = some lexeme) :
    lexeme.rest.length < text.length := by
  have hl := congrArg List.length (read?_append h)
  have hn := List.length_pos_iff.mpr (read?_text_ne_nil h)
  rw [List.length_append] at hl
  omega

end Lexeme

namespace Token

def stray (c : Char) (position : Nat) : SyntaxFault :=
  if c = '=' then .loneEqual position
  else if c = '&' then .loneAnd position
  else if c = '|' then .loneOr position
  else .strayCharacter c position

def readFrom (offset : Nat) (text : List Char) : Except SyntaxFault (List Token) :=
  match text with
  | [] => .ok []
  | c :: rest =>
    if isBlank c then readFrom (offset + c.utf8Size) rest
    else
      match _h : Lexeme.read? (c :: rest) with
      | none => .error (stray c offset)
      | some lexeme =>
        match readFrom (offset + width lexeme.text) lexeme.rest with
        | .error fault => .error fault
        | .ok tokens => .ok (⟨lexeme.kind, offset⟩ :: tokens)
termination_by text.length
decreasing_by
  · simp
  · exact Lexeme.read?_length (by assumption)

def read (text : List Char) : Except SyntaxFault (List Token) :=
  readFrom 0 text

end Token
end SceneFormula.Arithmetic
