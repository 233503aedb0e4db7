import SceneFormula.Arithmetic.Term
import SceneFormula.Arithmetic.Token

/-! The grammar of arithmetic, loosest first: or, and, equality, order, sums, products, signs,
powers. Binary operators lean to the left, but the exponent of a power is again a signed term. What
stands in parentheses, among arguments, behind a sign or in an exponent is one level deeper. -/
namespace SceneFormula.Arithmetic

/-- What terms are read against: the names of the variables, the width of the text, and how many
levels may nest. -/
structure Setting where
  parameters : List String
  stop : Nat
  limit : Nat

abbrev Rule := List Token → Except Fault (Term × List Token)

namespace Setting

def fail {α : Type} (fault : SyntaxFault) : Except Fault α :=
  .error fault.toFault

def position (setting : Setting) (tokens : List Token) : Nat :=
  (tokens.head?.map Token.position).getD setting.stop

def lookUp (setting : Setting) (name : String) : Option Term :=
  match setting.parameters.idxOf? name with
  | some index => some (.var index)
  | none => (constant? name).map .number

end Setting

/-- The rules for what is one level deeper: any term, and a term that may begin with signs. -/
structure Deeper where
  whole : Rule
  signed : Rule

namespace Grammar

/-- The operands that follow `left`, each one behind an operator of this strength. There are at most
`bound` of them. -/
def chain (operator? : Symbol → Option Operator) (operand : Rule) : Nat → Term → Rule
  | bound + 1, left, ⟨.symbol symbol, position⟩ :: rest =>
    match operator? symbol with
    | none => .ok (left, ⟨.symbol symbol, position⟩ :: rest)
    | some op =>
      match operand rest with
      | .error fault => .error fault
      | .ok (right, rest) => chain operator? operand bound (.binary op left right) rest
  | _, left, tokens => .ok (left, tokens)

def leftChain (operator? : Symbol → Option Operator) (operand : Rule) : Rule := fun tokens =>
  match operand tokens with
  | .error fault => .error fault
  | .ok (first, rest) => chain operator? operand rest.length first rest

def moreArguments (setting : Setting) (argument : Rule) :
    Nat → List Token → Except Fault (List Term × List Token)
  | _, ⟨.symbol .closeParen, _⟩ :: rest => .ok ([], rest)
  | bound + 1, ⟨.symbol .comma, _⟩ :: rest =>
    match argument rest with
    | .error fault => .error fault
    | .ok (first, rest) =>
      match moreArguments setting argument bound rest with
      | .error fault => .error fault
      | .ok (others, rest) => .ok (first :: others, rest)
  | _, tokens => Setting.fail (.unclosedCall (setting.position tokens))

def arguments (setting : Setting) (argument : Rule) :
    List Token → Except Fault (List Term × List Token)
  | ⟨.symbol .closeParen, _⟩ :: rest => .ok ([], rest)
  | tokens =>
    match argument tokens with
    | .error fault => .error fault
    | .ok (first, rest) =>
      match moreArguments setting argument rest.length rest with
      | .error fault => .error fault
      | .ok (others, rest) => .ok (first :: others, rest)

def call (setting : Setting) (argument : Rule) (name : String) (position : Nat)
    (tokens : List Token) : Except Fault (Term × List Token) :=
  match Builtin.ofName? name with
  | none => Setting.fail (.unknownFunction name position)
  | some function =>
    match arguments setting argument tokens with
    | .error fault => .error fault
    | .ok (terms, rest) =>
      if function.accepts terms.length then .ok (.call function terms, rest)
      else Setting.fail (.wrongArity name terms.length position)

def group (setting : Setting) (inner : Rule) : Rule := fun tokens =>
  match inner tokens with
  | .error fault => .error fault
  | .ok (term, ⟨.symbol .closeParen, _⟩ :: rest) => .ok (term, rest)
  | .ok (_, rest) => Setting.fail (.unclosedGroup (setting.position rest))

def primary (setting : Setting) (deeper : Deeper) : Rule
  | [] => Setting.fail (.unexpected "Eof" setting.stop)
  | ⟨.number value, _⟩ :: rest => .ok (.number value, rest)
  | ⟨.name name, position⟩ :: ⟨.symbol .openParen, _⟩ :: rest =>
    call setting deeper.whole name position rest
  | ⟨.name name, position⟩ :: rest =>
    match setting.lookUp name with
    | some term => .ok (term, rest)
    | none => Setting.fail (.unknownVariable name position)
  | ⟨.symbol .openParen, _⟩ :: rest => group setting deeper.whole rest
  | ⟨.symbol symbol, position⟩ :: _ => Setting.fail (.unexpected symbol.label position)

def power (setting : Setting) (deeper : Deeper) : Rule := fun tokens =>
  match primary setting deeper tokens with
  | .error fault => .error fault
  | .ok (base, ⟨.symbol .caret, _⟩ :: rest) =>
    match deeper.signed rest with
    | .error fault => .error fault
    | .ok (exponent, rest) => .ok (.binary .power base exponent, rest)
  | .ok (base, rest) => .ok (base, rest)

def sign (deeper : Deeper) (op : Sign) : Rule := fun tokens =>
  match deeper.signed tokens with
  | .error fault => .error fault
  | .ok (operand, rest) => .ok (.unary op operand, rest)

def signed (setting : Setting) (deeper : Deeper) : Rule
  | ⟨.symbol .minus, _⟩ :: rest => sign deeper .negate rest
  | ⟨.symbol .bang, _⟩ :: rest => sign deeper .not rest
  | tokens => power setting deeper tokens

def productOp : Symbol → Option Operator
  | .star => some .multiply
  | .slash => some .divide
  | .percent => some .modulo
  | _ => none

def sumOp : Symbol → Option Operator
  | .plus => some .add
  | .minus => some .subtract
  | _ => none

def orderOp : Symbol → Option Operator
  | .less => some .less
  | .lessOrEqual => some .lessOrEqual
  | .greater => some .greater
  | .greaterOrEqual => some .greaterOrEqual
  | _ => none

def equalityOp : Symbol → Option Operator
  | .equal => some .equal
  | .notEqual => some .notEqual
  | _ => none

def andOp : Symbol → Option Operator
  | .and => some .and
  | _ => none

def orOp : Symbol → Option Operator
  | .or => some .or
  | _ => none

def strengths : List (Symbol → Option Operator) :=
  [productOp, sumOp, orderOp, equalityOp, andOp, orOp]

def whole (setting : Setting) (deeper : Deeper) : Rule :=
  strengths.foldl (fun operand operator? => leftChain operator? operand) (signed setting deeper)

/-- The rules with so many levels left, the present one included. -/
def levels (setting : Setting) : Nat → Deeper
  | 0 =>
    ⟨fun _ => .error (.nestingTooDeep setting.limit),
      fun _ => .error (.nestingTooDeep setting.limit)⟩
  | left + 1 =>
    ⟨fun tokens => whole setting (levels setting left) tokens,
      fun tokens => signed setting (levels setting left) tokens⟩

end Grammar

namespace Term

def ofTokens (setting : Setting) (tokens : List Token) : Except Fault Term :=
  match tokens with
  | [] => Setting.fail .empty
  | _ =>
    match (Grammar.levels setting (setting.limit + 1)).whole tokens with
    | .error fault => .error fault
    | .ok (term, []) => .ok term
    | .ok (_, token :: _) => Setting.fail (.trailing token.position)

end Term
end SceneFormula.Arithmetic
