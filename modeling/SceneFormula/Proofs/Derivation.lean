import SceneFormula.Arithmetic.Grammar

/-! The grammar of arithmetic as a relation between the kinds of tokens and the terms they make up.
It says nothing about how tokens are read: binary operators of one strength lean to the left, and
each rule is given by what may stand one level deeper. -/
namespace SceneFormula.Arithmetic

/-- Which sequences of tokens make up which terms. -/
abbrev Reading := List TokenKind → Term → Prop

namespace Reading

inductive Chain (operator? : Symbol → Option Operator) (operand : Reading) : Reading
  | one {kinds : List TokenKind} {term : Term} (h : operand kinds term) :
    Chain operator? operand kinds term
  | more {kinds more : List TokenKind} {left right : Term} {symbol : Symbol} {op : Operator}
    (hl : Chain operator? operand kinds left) (ho : operator? symbol = some op)
    (hr : operand more right) :
    Chain operator? operand (kinds ++ .symbol symbol :: more) (.binary op left right)

inductive Listed (argument : Reading) : List TokenKind → List Term → Prop
  | last {kinds : List TokenKind} {term : Term} (h : argument kinds term) :
    Listed argument kinds [term]
  | more {kinds others : List TokenKind} {term : Term} {terms : List Term}
    (h : argument kinds term) (ht : Listed argument others terms) :
    Listed argument (kinds ++ .symbol .comma :: others) (term :: terms)

inductive Arguments (argument : Reading) : List TokenKind → List Term → Prop
  | none : Arguments argument [] []
  | some {kinds : List TokenKind} {terms : List Term} (h : Listed argument kinds terms) :
    Arguments argument kinds terms

/-- A number, a parameter, a constant, a call of a builtin function, or a term in parentheses. A
parameter hides a constant of its name. -/
inductive Primary (parameters : List String) (whole : Reading) : Reading
  | number (value : Float) : Primary parameters whole [.number value] (.number value)
  | parameter {name : String} {index : Nat} (h : parameters.idxOf? name = some index) :
    Primary parameters whole [.name name] (.var index)
  | constant {name : String} {value : Float} (hn : parameters.idxOf? name = none)
    (hv : constant? name = some value) : Primary parameters whole [.name name] (.number value)
  | call {name : String} {function : Builtin} {kinds : List TokenKind} {terms : List Term}
    (hf : Builtin.ofName? name = some function) (h : Arguments whole kinds terms)
    (ha : function.accepts terms.length = true) :
    Primary parameters whole (.name name :: .symbol .openParen :: (kinds ++ [.symbol .closeParen]))
      (.call function terms)
  | group {kinds : List TokenKind} {term : Term} (h : whole kinds term) :
    Primary parameters whole (.symbol .openParen :: (kinds ++ [.symbol .closeParen])) term

inductive Power (primary signed : Reading) : Reading
  | base {kinds : List TokenKind} {term : Term} (h : primary kinds term) :
    Power primary signed kinds term
  | raised {kinds more : List TokenKind} {base exponent : Term} (hb : primary kinds base)
    (he : signed more exponent) :
    Power primary signed (kinds ++ .symbol .caret :: more) (.binary .power base exponent)

inductive Signed (power deeper : Reading) : Reading
  | power {kinds : List TokenKind} {term : Term} (h : power kinds term) :
    Signed power deeper kinds term
  | negate {kinds : List TokenKind} {term : Term} (h : deeper kinds term) :
    Signed power deeper (.symbol .minus :: kinds) (.unary .negate term)
  | not {kinds : List TokenKind} {term : Term} (h : deeper kinds term) :
    Signed power deeper (.symbol .bang :: kinds) (.unary .not term)

def chains (signed : Reading) : Reading :=
  Grammar.strengths.foldl (fun operand operator? => Chain operator? operand) signed

end Reading

structure Readings where
  whole : Reading
  signed : Reading

namespace Readings

def above (parameters : List String) (deeper : Readings) : Readings :=
  let signed := Reading.Signed
    (Reading.Power (Reading.Primary parameters deeper.whole) deeper.signed) deeper.signed
  ⟨Reading.chains signed, signed⟩

def levels (parameters : List String) : Nat → Readings
  | 0 => ⟨fun _ _ => False, fun _ _ => False⟩
  | left + 1 => above parameters (levels parameters left)

end Readings

/-- The tokens make up the term, with at most `limit` levels of parentheses, arguments, signs and
exponents nested in one another. -/
def Derives (parameters : List String) (limit : Nat) : Reading :=
  (Readings.levels parameters (limit + 1)).whole

namespace Reading

def Within (reading other : Reading) : Prop :=
  ∀ kinds term, reading kinds term → other kinds term

/-- A relation that every step of a derivation keeps, whatever its rank and its level. -/
structure Kept (parameters : List String) (kept : Reading)
    (all : List TokenKind → List Term → Prop) : Prop where
  number (value : Float) : kept [.number value] (.number value)
  parameter {name : String} {index : Nat} (h : parameters.idxOf? name = some index) :
    kept [.name name] (.var index)
  constant {name : String} {value : Float} (hn : parameters.idxOf? name = none)
    (hv : constant? name = some value) : kept [.name name] (.number value)
  call {name : String} {function : Builtin} {kinds : List TokenKind} {terms : List Term}
    (hf : Builtin.ofName? name = some function) (h : all kinds terms) :
    kept (.name name :: .symbol .openParen :: (kinds ++ [.symbol .closeParen]))
      (.call function terms)
  group {kinds : List TokenKind} {term : Term} (h : kept kinds term) :
    kept (.symbol .openParen :: (kinds ++ [.symbol .closeParen])) term
  unary {symbol : Symbol} {op : Sign} {kinds : List TokenKind} {term : Term}
    (h : kept kinds term) : kept (.symbol symbol :: kinds) (.unary op term)
  binary {symbol : Symbol} {op : Operator} {kinds more : List TokenKind} {left right : Term}
    (hl : kept kinds left) (hr : kept more right) :
    kept (kinds ++ .symbol symbol :: more) (.binary op left right)
  none : all [] []
  last {kinds : List TokenKind} {term : Term} (h : kept kinds term) : all kinds [term]
  more {kinds others : List TokenKind} {term : Term} {terms : List Term} (h : kept kinds term)
    (ht : all others terms) : all (kinds ++ .symbol .comma :: others) (term :: terms)

namespace Kept
variable {parameters : List String} {kept : Reading} {all : List TokenKind → List Term → Prop}

private theorem chain (hk : Kept parameters kept all) {operator? : Symbol → Option Operator}
    {operand : Reading} (h : operand.Within kept) : Within (Chain operator? operand) kept := by
  intro kinds term hc
  induction hc with
  | one ho => exact h _ _ ho
  | more _ _ hr ih => exact hk.binary ih (h _ _ hr)

private theorem primary (hk : Kept parameters kept all) {whole : Reading} (h : whole.Within kept) :
    Within (Primary parameters whole) kept := by
  have listed {kinds : List TokenKind} {terms : List Term} (hl : Listed whole kinds terms) :
      all kinds terms := by
    induction hl with
    | last ht => exact hk.last (h _ _ ht)
    | more ht _ ih => exact hk.more (h _ _ ht) ih
  intro kinds term hp
  cases hp with
  | number value => exact hk.number value
  | parameter hi => exact hk.parameter hi
  | constant hn hv => exact hk.constant hn hv
  | call hf ha _ =>
    cases ha with
    | none => exact hk.call hf hk.none
    | some hl => exact hk.call hf (listed hl)
  | group hw => exact hk.group (h _ _ hw)

private theorem signed (hk : Kept parameters kept all) {whole deeper : Reading}
    (h : whole.Within kept) (hd : deeper.Within kept) :
    Within (Signed (Power (Primary parameters whole) deeper) deeper) kept := by
  intro kinds term hs
  cases hs with
  | power hp =>
    cases hp with
    | base hb => exact hk.primary h _ _ hb
    | raised hb he => exact hk.binary (hk.primary h _ _ hb) (hd _ _ he)
  | negate ho => exact hk.unary (hd _ _ ho)
  | not ho => exact hk.unary (hd _ _ ho)

theorem levels (hk : Kept parameters kept all) (left : Nat) :
    (Readings.levels parameters left).whole.Within kept ∧
      (Readings.levels parameters left).signed.Within kept := by
  induction left with
  | zero => exact ⟨fun _ _ => False.elim, fun _ _ => False.elim⟩
  | succ left ih =>
    have hs := hk.signed ih.1 ih.2
    exact ⟨hk.chain (hk.chain (hk.chain (hk.chain (hk.chain (hk.chain hs))))), hs⟩

end Kept
end Reading

theorem Derives.kept {parameters : List String} {limit : Nat} {kinds : List TokenKind}
    {term : Term} (h : Derives parameters limit kinds term) {kept : Reading}
    {all : List TokenKind → List Term → Prop} (hk : Reading.Kept parameters kept all) :
    kept kinds term :=
  (hk.levels (limit + 1)).1 kinds term h

end SceneFormula.Arithmetic
