import SceneFormula.Proofs.Combining
import SceneFormula.Proofs.LevelLimits

/-! The grammar of arithmetic by ranks, and how it is parsed. An operator of a rank takes a left
operand of its own rank and a right operand of the next tighter one, so it leans to the left; only a
power takes an exponent that is looser than its base. -/
namespace SceneFormula.Arithmetic

inductive Rank where
  | or | and | equality | order | sum | product | sign | power | primary
  deriving DecidableEq, Repr

def Rank.tighter : Rank → Rank
  | or => and
  | and => equality
  | equality => order
  | order => sum
  | sum => product
  | product => sign
  | sign => power
  | power | primary => primary

def Operator.rank : Operator → Rank
  | or => .or
  | and => .and
  | equal | notEqual => .equality
  | less | lessOrEqual | greater | greaterOrEqual => .order
  | add | subtract => .sum
  | multiply | divide | modulo => .product
  | power => .power

mutual
/-- The tokens make up the term as one of a rank, with at most so many levels of parentheses,
arguments, signs and exponents nested in one another. -/
inductive Ranked (parameters : List String) :
    Nat → Rank → List TokenKind → Term → Prop
  | tighter {levels : Nat} {rank : Rank} {kinds : List TokenKind} {term : Term}
    (h : Ranked parameters levels rank.tighter kinds term) :
    Ranked parameters levels rank kinds term
  | binary {levels : Nat} (op : Operator) {kinds more : List TokenKind} {left right : Term}
    (hop : op ≠ .power) (hl : Ranked parameters levels op.rank kinds left)
    (hr : Ranked parameters levels op.rank.tighter more right) :
    Ranked parameters levels op.rank (kinds ++ .symbol op.symbol :: more) (.binary op left right)
  | sign {levels : Nat} {kinds : List TokenKind} {term : Term} (op : Sign)
    (h : Ranked parameters levels .sign kinds term) :
    Ranked parameters (levels + 1) .sign (.symbol op.symbol :: kinds) (.unary op term)
  | power {levels : Nat} {kinds more : List TokenKind} {base exponent : Term}
    (hb : Ranked parameters (levels + 1) .primary kinds base)
    (he : Ranked parameters levels .sign more exponent) :
    Ranked parameters (levels + 1) .power (kinds ++ .symbol .caret :: more)
      (.binary .power base exponent)
  | number {levels : Nat} (value : Float) :
    Ranked parameters levels .primary [.number value] (.number value)
  | parameter {levels : Nat} {name : String} {index : Nat}
    (h : parameters.idxOf? name = some index) :
    Ranked parameters levels .primary [.name name] (.var index)
  | constant {levels : Nat} {name : String} {value : Float}
    (hn : parameters.idxOf? name = none) (hv : constant? name = some value) :
    Ranked parameters levels .primary [.name name] (.number value)
  | group {levels : Nat} {kinds : List TokenKind} {term : Term}
    (h : Ranked parameters levels .or kinds term) :
    Ranked parameters (levels + 1) .primary
      (.symbol .openParen :: (kinds ++ [.symbol .closeParen])) term
  | call {levels : Nat} {name : String} {function : Builtin} {kinds : List TokenKind}
    {terms : List Term} (hf : Builtin.ofName? name = some function)
    (h : RankedEach parameters levels kinds terms) (ha : function.accepts terms.length = true) :
    Ranked parameters (levels + 1) .primary
      (.name name :: .symbol .openParen :: (kinds ++ [.symbol .closeParen])) (.call function terms)
  | bareCall {levels : Nat} {name : String} {function : Builtin}
    (hf : Builtin.ofName? name = some function) (ha : function.accepts 0 = true) :
    Ranked parameters levels .primary
      [.name name, .symbol .openParen, .symbol .closeParen] (.call function [])

inductive RankedEach (parameters : List String) : Nat → List TokenKind → List Term → Prop
  | last {levels : Nat} {kinds : List TokenKind} {term : Term}
    (h : Ranked parameters levels .or kinds term) : RankedEach parameters levels kinds [term]
  | more {levels : Nat} {kinds others : List TokenKind} {term : Term} {terms : List Term}
    (h : Ranked parameters levels .or kinds term)
    (ht : RankedEach parameters levels others terms) :
    RankedEach parameters levels (kinds ++ .symbol .comma :: others) (term :: terms)
end

mutual
/-- Every variable is one of the first `count`, and every call has a count of arguments that its
function takes. -/
def Term.WellFormed (count : Nat) : Term → Prop
  | .number _ => True
  | .var index => index < count
  | .unary _ operand => operand.WellFormed count
  | .binary _ left right => left.WellFormed count ∧ right.WellFormed count
  | .call function arguments =>
    function.accepts arguments.length = true ∧ Term.AllWellFormed count arguments

def Term.AllWellFormed (count : Nat) : List Term → Prop
  | [] => True
  | term :: rest => term.WellFormed count ∧ Term.AllWellFormed count rest
end

variable {parameters : List String}

mutual
/-- What tokens make up is well formed. -/
theorem Ranked.wellFormed : ∀ {levels : Nat} {rank : Rank} {kinds : List TokenKind} {term : Term},
    Ranked parameters levels rank kinds term → term.WellFormed parameters.length
  | _, _, _, _, .tighter h => h.wellFormed
  | _, _, _, _, .binary _ _ hl hr => ⟨hl.wellFormed, hr.wellFormed⟩
  | _, _, _, _, .sign _ h => h.wellFormed
  | _, _, _, _, .power hb he => ⟨hb.wellFormed, he.wellFormed⟩
  | _, _, _, _, .number _ => trivial
  | _, _, _, _, .parameter h => (List.idxOf?_eq_some_iff.mp h).1
  | _, _, _, _, .constant _ _ => trivial
  | _, _, _, _, .group h => h.wellFormed
  | _, _, _, _, .call _ h ha => ⟨ha, h.wellFormed⟩
  | _, _, _, _, .bareCall _ ha => ⟨ha, trivial⟩

theorem RankedEach.wellFormed : ∀ {levels : Nat} {kinds : List TokenKind} {terms : List Term},
    RankedEach parameters levels kinds terms → Term.AllWellFormed parameters.length terms
  | _, _, _, .last h => ⟨h.wellFormed, trivial⟩
  | _, _, _, .more h ht => ⟨h.wellFormed, ht.wellFormed⟩
end

private def Rank.reading (parameters : List String) (levels : Nat) (rank : Rank) : Reading :=
  let deeper := Readings.levels parameters levels
  let primary := Reading.Primary parameters deeper.whole
  let power := Reading.Power primary deeper.signed
  let sign := Reading.Signed power deeper.signed
  let product := Reading.Chain Grammar.productOp sign
  let sum := Reading.Chain Grammar.sumOp product
  let order := Reading.Chain Grammar.orderOp sum
  let equality := Reading.Chain Grammar.equalityOp order
  let and := Reading.Chain Grammar.andOp equality
  match rank with
  | .or => .Chain Grammar.orOp and
  | .and => and
  | .equality => equality
  | .order => order
  | .sum => sum
  | .product => product
  | .sign => sign
  | .power => power
  | .primary => primary

mutual
private theorem Ranked.reads :
    ∀ {levels : Nat} {rank : Rank} {kinds : List TokenKind} {term : Term},
      Ranked parameters levels rank kinds term → rank.reading parameters levels kinds term
  | _, rank, _, _, .tighter h => by
    have hr := h.reads
    cases rank with
    | or | and | equality | order | sum | product => exact .one hr
    | sign => exact .power hr
    | power => exact .base hr
    | primary => exact hr
  | _, _, _, _, .binary op hop hl hr => by
    have hleft := hl.reads
    have hright := hr.reads
    cases op with
    | power => exact absurd rfl hop
    | add | subtract | multiply | divide | modulo | equal | notEqual | less | lessOrEqual | greater
    | greaterOrEqual | and | or => exact .more hleft rfl hright
  | _, _, _, _, .sign op h => by
    have hr := h.reads
    cases op with
    | negate => exact .negate hr
    | not => exact .not hr
  | _, _, _, _, .power hb he => .raised hb.reads he.reads
  | _, _, _, _, .number value => .number value
  | _, _, _, _, .parameter h => .parameter h
  | _, _, _, _, .constant hn hv => .constant hn hv
  | _, _, _, _, .group h => .group h.reads
  | _, _, _, _, .call hf h ha => .call hf (.some h.listed) ha
  | _, _, _, _, .bareCall hf ha => .call hf .none ha

private theorem RankedEach.listed :
    ∀ {levels : Nat} {kinds : List TokenKind} {terms : List Term},
      RankedEach parameters levels kinds terms →
        Reading.Listed (Rank.or.reading parameters levels) kinds terms
  | _, _, _, .last h => .last h.reads
  | _, _, _, .more h ht => .more h.reads ht.listed
end

section Completeness
variable {levels : Nat} {rank : Rank}

/-- Operands of the next tighter rank are joined by the operators of a rank. -/
private theorem Ranked.of_chain {operator? : Symbol → Option Operator} {operand : Reading}
    (ho : ∀ symbol, ∀ op ∈ operator? symbol, op.rank = rank ∧ op.symbol = symbol ∧ op ≠ .power)
    (h : operand.Within (Ranked parameters levels rank.tighter)) :
    Reading.Within (.Chain operator? operand) (Ranked parameters levels rank) := by
  intro kinds term hc
  induction hc with
  | one hf => exact .tighter (h _ _ hf)
  | more _ hop hr ih =>
    obtain ⟨rfl, rfl, hpower⟩ := ho _ _ hop
    exact .binary _ hpower ih (h _ _ hr)

private theorem Ranked.of_chains {signed : Reading}
    (h : signed.Within (Ranked parameters levels .sign)) :
    (Reading.chains signed).Within (Ranked parameters levels .or) := by
  have hproduct : Reading.Within (.Chain Grammar.productOp _) (Ranked parameters levels .product) :=
    of_chain (by intro symbol; cases symbol <;> decide) h
  have hsum : Reading.Within (.Chain Grammar.sumOp _) (Ranked parameters levels .sum) :=
    of_chain (by intro symbol; cases symbol <;> decide) hproduct
  have horder : Reading.Within (.Chain Grammar.orderOp _) (Ranked parameters levels .order) :=
    of_chain (by intro symbol; cases symbol <;> decide) hsum
  have hequality :
      Reading.Within (.Chain Grammar.equalityOp _) (Ranked parameters levels .equality) :=
    of_chain (by intro symbol; cases symbol <;> decide) horder
  have hand : Reading.Within (.Chain Grammar.andOp _) (Ranked parameters levels .and) :=
    of_chain (by intro symbol; cases symbol <;> decide) hequality
  exact of_chain (by intro symbol; cases symbol <;> decide) hand

/-- The terms of one level are of their ranks, if those of the levels below are. -/
private theorem Ranked.of_signed {whole signed : Reading}
    (hw : ∀ kinds term, whole kinds term →
      ∃ below, levels = below + 1 ∧ Ranked parameters below .or kinds term)
    (hs : ∀ kinds term, signed kinds term →
      ∃ below, levels = below + 1 ∧ Ranked parameters below .sign kinds term) :
    Reading.Within (.Signed (.Power (.Primary parameters whole) signed) signed)
      (Ranked parameters levels .sign) := by
  have listed {kinds : List TokenKind} {terms : List Term} (h : Reading.Listed whole kinds terms) :
      ∃ below, levels = below + 1 ∧ RankedEach parameters below kinds terms := by
    induction h with
    | last h =>
      obtain ⟨below, rfl, ht⟩ := hw _ _ h
      exact ⟨below, rfl, .last ht⟩
    | more h _ ih =>
      obtain ⟨below, rfl, ht⟩ := hw _ _ h
      obtain ⟨_, he, hr⟩ := ih
      obtain rfl := Nat.succ.inj he
      exact ⟨below, rfl, .more ht hr⟩
  have primary :
      Reading.Within (.Primary parameters whole) (Ranked parameters levels .primary) := by
    intro kinds term h
    cases h with
    | number value => exact .number value
    | parameter hi => exact .parameter hi
    | constant hn hv => exact .constant hn hv
    | call hf h ha =>
      cases h with
      | none => exact .bareCall hf ha
      | some hl =>
        obtain ⟨below, rfl, ht⟩ := listed hl
        exact .call hf ht ha
    | group h =>
      obtain ⟨below, rfl, ht⟩ := hw _ _ h
      exact .group ht
  intro kinds term h
  cases h with
  | power h =>
    cases h with
    | base hb => exact .tighter (.tighter (primary _ _ hb))
    | raised hb he =>
      obtain ⟨below, rfl, ht⟩ := hs _ _ he
      exact .tighter (.power (primary _ _ hb) ht)
  | negate h =>
    obtain ⟨below, rfl, ht⟩ := hs _ _ h
    exact .sign .negate ht
  | not h =>
    obtain ⟨below, rfl, ht⟩ := hs _ _ h
    exact .sign .not ht

private theorem Ranked.of_levels (left : Nat) :
    (∀ kinds term, (Readings.levels parameters left).whole kinds term →
      ∃ below, left = below + 1 ∧ Ranked parameters below .or kinds term) ∧
    (∀ kinds term, (Readings.levels parameters left).signed kinds term →
      ∃ below, left = below + 1 ∧ Ranked parameters below .sign kinds term) := by
  induction left with
  | zero => exact ⟨fun _ _ => False.elim, fun _ _ => False.elim⟩
  | succ left ih =>
    have hs := of_signed ih.1 ih.2
    exact ⟨fun _ _ h => ⟨left, rfl, of_chains hs _ _ h⟩, fun _ _ h => ⟨left, rfl, hs _ _ h⟩⟩

end Completeness

/-- The grammar by ranks and the rules of arithmetic account for the same terms. -/
theorem ranked_iff_derives {limit : Nat} {kinds : List TokenKind} {term : Term} :
    Ranked parameters limit .or kinds term ↔ Derives parameters limit kinds term := by
  constructor
  · exact Ranked.reads
  · intro h
    obtain ⟨_, he, ht⟩ := (Ranked.of_levels (limit + 1)).1 kinds term h
    exact Nat.succ.inj he ▸ ht

/-- Tokens make up one term at most, whatever number of levels it takes. -/
theorem Ranked.unique {limit other : Nat} {kinds : List TokenKind} {term second : Term}
    (h : Ranked parameters limit .or kinds term) (hs : Ranked parameters other .or kinds second) :
    term = second := by
  have hl := (ranked_iff_derives.mp h).mono (Nat.le_max_left limit other)
  have hr := (ranked_iff_derives.mp hs).mono (Nat.le_max_right limit other)
  obtain ⟨tokens, rfl⟩ : ∃ tokens : List Token, tokens.map Token.kind = kinds :=
    ⟨kinds.map fun kind => ⟨kind, 0⟩, by simp [Function.comp_def]⟩
  have ht : Term.ofTokens ⟨parameters, 0, max limit other⟩ tokens = .ok term :=
    Term.ofTokens_eq_ok_iff.mpr hl
  rw [Term.ofTokens_eq_ok_iff.mpr hr] at ht
  exact (Except.ok.inj ht).symm

namespace Term

/-- Tokens that make up a term only with more levels run into the limit. -/
private theorem ofTokens_of_more {stop limit more : Nat} {tokens : List Token} {term : Term}
    (h : Ranked parameters more .or (tokens.map Token.kind) term)
    (hn : ∀ found, ¬ Ranked parameters limit .or (tokens.map Token.kind) found) :
    ofTokens ⟨parameters, stop, limit⟩ tokens = .error (.nestingTooDeep limit) := by
  have hd : Derives parameters (max limit more) (tokens.map Token.kind) term :=
    (ranked_iff_derives.mp h).mono (Nat.le_max_right limit more)
  have hm : ofTokens ⟨parameters, stop, max limit more⟩ tokens = .ok term :=
    ofTokens_eq_ok_iff.mpr hd
  have hl := ofTokens_limited parameters stop (Nat.le_max_left limit more) tokens
  rw [hm] at hl
  generalize hr : ofTokens ⟨parameters, stop, limit⟩ tokens = result at hl
  cases hl with
  | read => exact absurd (ranked_iff_derives.mpr (ofTokens_eq_ok_iff.mp hr)) (hn term)
  | tooDeep => rfl

/-- The rules read the term that the tokens make up under the limit. There is one such term at most,
and it is well formed. Tokens that make up a term with more levels only nest too deep. -/
theorem ofTokens_ranked (parameters : List String) (stop : Nat) (tokens : List Token) :
    (∀ limit term, ofTokens ⟨parameters, stop, limit⟩ tokens = .ok term ↔
      Ranked parameters limit .or (tokens.map Token.kind) term) ∧
    (∀ limit other term second, Ranked parameters limit .or (tokens.map Token.kind) term →
      Ranked parameters other .or (tokens.map Token.kind) second → term = second) ∧
    (∀ limit term, Ranked parameters limit .or (tokens.map Token.kind) term →
      term.WellFormed parameters.length) ∧
    (∀ limit more term, Ranked parameters more .or (tokens.map Token.kind) term →
      (∀ found, ¬ Ranked parameters limit .or (tokens.map Token.kind) found) →
        ofTokens ⟨parameters, stop, limit⟩ tokens = .error (.nestingTooDeep limit)) :=
  ⟨fun _ _ => ofTokens_eq_ok_iff.trans ranked_iff_derives.symm,
    fun _ _ _ _ => Ranked.unique,
    fun _ _ => Ranked.wellFormed,
    fun _ _ _ => ofTokens_of_more⟩

def tokensSample : List Token :=
  [⟨.symbol .minus, 0⟩, ⟨.symbol .minus, 1⟩, ⟨.name "x", 2⟩]

/-- Two signs are two levels. -/
theorem ofTokens_ranked_sample :
    ofTokens ⟨["x"], 3, 2⟩ tokensSample = .ok (.unary .negate (.unary .negate (.var 0))) ∧
      ofTokens ⟨["x"], 3, 1⟩ tokensSample = .error (.nestingTooDeep 1) := by
  obtain ⟨hread, -, -, hdeep⟩ := ofTokens_ranked ["x"] 3 tokensSample
  have hs : Ranked ["x"] 2 .or (tokensSample.map Token.kind)
      (.unary .negate (.unary .negate (.var 0))) :=
    .tighter (.tighter (.tighter (.tighter (.tighter (.tighter
      (.sign .negate (.sign .negate (.tighter (.tighter (.parameter rfl))))))))))
  refine ⟨(hread 2 _).mpr hs, hdeep 1 2 _ hs fun found h => ?_⟩
  have hf := (hread 1 found).mpr h
  cases hf

end Term
end SceneFormula.Arithmetic
