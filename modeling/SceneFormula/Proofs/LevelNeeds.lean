import SceneFormula.Proofs.LevelLimits

/-! How many levels arithmetic can need. Every level is opened by a parenthesis, a sign or a power,
so that a text with no more of these than the limit never runs into it, well formed or not. -/
namespace SceneFormula.Arithmetic

def opensLevel (c : Char) : Bool :=
  c == '(' || c == '-' || c == '!' || c == '^'

def Token.opensLevel (token : Token) : Bool :=
  match token.kind with
  | .symbol .openParen | .symbol .minus | .symbol .bang | .symbol .caret => true
  | _ => false

/-- An answer that no limit causes. What is left to read is an end of the tokens. -/
inductive Unlimited {α : Type} (tokens : List Token) : Except Fault (α × List Token) → Prop
  | read {value : α} {rest : List Token} (h : rest <:+ tokens) :
    Unlimited tokens (.ok (value, rest))
  | malformed (fault : SyntaxFault) : Unlimited tokens (Setting.fail fault)

/-- A rule that does not run into the limit where fewer tokens than its levels open one. -/
def Rule.Suffices (levels : Nat) (rule : Rule) : Prop :=
  ∀ tokens, tokens.countP Token.opensLevel < levels → Unlimited tokens (rule tokens)

structure Deeper.Suffices (levels : Nat) (deeper : Deeper) : Prop where
  whole : deeper.whole.Suffices levels
  signed : deeper.signed.Suffices levels

theorem countP_opensLevel_le {rest tokens : List Token} (h : rest <:+ tokens) :
    rest.countP Token.opensLevel ≤ tokens.countP Token.opensLevel :=
  h.sublist.countP_le

namespace Unlimited
open Grammar
variable {levels : Nat} {tokens : List Token}

theorem mono {α : Type} {rest : List Token} {found : Except Fault (α × List Token)}
    (hs : rest <:+ tokens) : Unlimited rest found → Unlimited tokens found
  | .read h => .read (h.trans hs)
  | .malformed fault => .malformed fault

/-- What is done with a term that was read, which is done to an end of the tokens. -/
private theorem andThen {α : Type} {found : Except Fault (Term × List Token)}
    {next : Term → List Token → Except Fault (α × List Token)}
    (hn : ∀ term rest, rest <:+ tokens → Unlimited rest (next term rest)) :
    Unlimited tokens found → Unlimited tokens
      (match found with
        | .error fault => .error fault
        | .ok (term, rest) => next term rest)
  | .read h => (hn _ _ h).mono h
  | .malformed fault => .malformed fault

private theorem cons (first : Term) {found : Except Fault (List Term × List Token)} :
    Unlimited tokens found → Unlimited tokens
      (match found with
        | .error fault => .error fault
        | .ok (others, rest) => .ok (first :: others, rest))
  | .read h => .read h
  | .malformed fault => .malformed fault

section Chains
variable {operator? : Symbol → Option Operator} {operand : Rule}

private theorem chain (ho : operand.Suffices levels) (bound : Nat) (left : Term)
    (tokens : List Token) (ht : tokens.countP Token.opensLevel < levels) :
    Unlimited tokens (Grammar.chain operator? operand bound left tokens) := by
  induction bound generalizing left tokens with
  | zero =>
    unfold Grammar.chain
    exact .read List.suffix_rfl
  | succ bound ih =>
    unfold Grammar.chain
    split
    · rename_i symbol position rest heq
      obtain rfl := Nat.succ.inj heq
      split
      · exact .read List.suffix_rfl
      · have hrest : rest <:+ ⟨.symbol symbol, position⟩ :: rest := List.suffix_cons _ _
        have hcount := countP_opensLevel_le hrest
        refine mono hrest (andThen (fun right more hm => ?_) (ho rest (by omega)))
        have := countP_opensLevel_le hm
        exact ih _ more (by omega)
    · exact .read List.suffix_rfl

private theorem leftChain (ho : operand.Suffices levels) :
    Rule.Suffices levels (Grammar.leftChain operator? operand) := by
  intro tokens ht
  unfold Grammar.leftChain
  refine andThen (fun first rest hr => ?_) (ho tokens ht)
  have := countP_opensLevel_le hr
  exact chain ho _ first rest (by omega)

end Chains

section Levels
variable {setting : Setting} {deeper : Deeper} {argument : Rule}

private theorem moreArguments (ha : argument.Suffices levels) (bound : Nat) (tokens : List Token)
    (ht : tokens.countP Token.opensLevel < levels) :
    Unlimited tokens (Grammar.moreArguments setting argument bound tokens) := by
  induction bound generalizing tokens with
  | zero =>
    unfold Grammar.moreArguments
    split
    · exact .read (List.suffix_cons _ _)
    · contradiction
    · exact .malformed _
  | succ bound ih =>
    unfold Grammar.moreArguments
    split
    · exact .read (List.suffix_cons _ _)
    · rename_i position rest heq
      obtain rfl := Nat.succ.inj heq
      have hrest : rest <:+ ⟨.symbol .comma, position⟩ :: rest := List.suffix_cons _ _
      have hcount := countP_opensLevel_le hrest
      refine mono hrest (andThen (fun first more hm => ?_) (ha rest (by omega)))
      have := countP_opensLevel_le hm
      exact cons first (ih more (by omega))
    · exact .malformed _

private theorem arguments (ha : argument.Suffices levels) (tokens : List Token)
    (ht : tokens.countP Token.opensLevel < levels) :
    Unlimited tokens (Grammar.arguments setting argument tokens) := by
  unfold Grammar.arguments
  split
  · exact .read (List.suffix_cons _ _)
  · refine andThen (fun first rest hr => ?_) (ha _ ht)
    have := countP_opensLevel_le hr
    exact cons first (moreArguments ha rest.length rest (by omega))

private theorem call (ha : argument.Suffices levels) (name : String) (position : Nat)
    (tokens : List Token) (ht : tokens.countP Token.opensLevel < levels) :
    Unlimited tokens (Grammar.call setting argument name position tokens) := by
  unfold Grammar.call
  split
  · exact .malformed _
  · have hf := @arguments levels setting argument ha tokens ht
    generalize Grammar.arguments setting argument tokens = found at hf
    cases hf with
    | malformed fault => exact .malformed fault
    | read h =>
      dsimp only
      split
      · exact .read h
      · exact .malformed _

private theorem group {inner : Rule} (hi : inner.Suffices levels) :
    Rule.Suffices levels (Grammar.group setting inner) := by
  intro tokens ht
  unfold Grammar.group
  have hf := hi tokens ht
  generalize inner tokens = found at hf
  cases hf with
  | malformed fault => exact .malformed fault
  | read h =>
    split
    · contradiction
    · rename_i heq
      cases heq
      exact .read ((List.suffix_cons _ _).trans h)
    · exact .malformed _

private theorem primary (hd : deeper.Suffices levels) :
    Rule.Suffices (levels + 1) (Grammar.primary setting deeper) := by
  intro tokens ht
  unfold Grammar.primary
  split
  · exact .malformed _
  · exact .read (List.suffix_cons _ _)
  · rename_i name position opening rest
    simp only [List.countP_cons, Token.opensLevel, if_true] at ht
    have hrest := (List.suffix_cons ⟨.symbol .openParen, opening⟩ rest).trans
      (List.suffix_cons ⟨.name name, position⟩ _)
    exact mono hrest (call hd.whole _ _ _ (by omega))
  · split
    · exact .read (List.suffix_cons _ _)
    · exact .malformed _
  · simp only [List.countP_cons, Token.opensLevel, if_true] at ht
    exact mono (List.suffix_cons _ _) (group hd.whole _ (by omega))
  · exact .malformed _

private theorem power (hd : deeper.Suffices levels) :
    Rule.Suffices (levels + 1) (Grammar.power setting deeper) := by
  intro tokens ht
  unfold Grammar.power
  have hb := @primary levels setting deeper hd tokens ht
  generalize Grammar.primary setting deeper tokens = found at hb
  cases hb with
  | malformed fault => exact .malformed fault
  | read h =>
    split
    · contradiction
    · rename_i heq
      cases heq
      rename_i rest
      have hcount := countP_opensLevel_le h
      simp only [List.countP_cons, Token.opensLevel, if_true] at hcount
      have hrest := (List.suffix_cons _ rest).trans h
      refine mono hrest (andThen (fun exponent more hm => ?_) (hd.signed rest (by omega)))
      exact .read List.suffix_rfl
    · rename_i heq
      cases heq
      exact .read h

private theorem sign (hd : deeper.Suffices levels) (op : Sign) :
    Rule.Suffices levels (Grammar.sign deeper op) := by
  intro tokens ht
  unfold Grammar.sign
  refine andThen (fun operand rest hr => ?_) (hd.signed tokens ht)
  exact .read List.suffix_rfl

private theorem signed (hd : deeper.Suffices levels) :
    Rule.Suffices (levels + 1) (Grammar.signed setting deeper) := by
  intro tokens ht
  unfold Grammar.signed
  split
  · simp only [List.countP_cons, Token.opensLevel, if_true] at ht
    exact mono (List.suffix_cons _ _) (sign hd .negate _ (by omega))
  · simp only [List.countP_cons, Token.opensLevel, if_true] at ht
    exact mono (List.suffix_cons _ _) (sign hd .not _ (by omega))
  · exact power hd _ ht

private theorem whole (hd : deeper.Suffices levels) :
    Rule.Suffices (levels + 1) (Grammar.whole setting deeper) :=
  leftChain (leftChain (leftChain (leftChain (leftChain (leftChain (signed hd))))))

theorem levels_suffices (setting : Setting) (left : Nat) :
    (Grammar.levels setting left).Suffices left := by
  induction left with
  | zero => exact ⟨fun _ h => absurd h (Nat.not_lt_zero _), fun _ h => absurd h (Nat.not_lt_zero _)⟩
  | succ left ih => exact ⟨whole ih, signed ih⟩

end Levels
end Unlimited

/-- Tokens that open no more levels than the limit do not nest too deep. -/
theorem Term.ofTokens_ne_nestingTooDeep {setting : Setting} {tokens : List Token}
    (h : tokens.countP Token.opensLevel ≤ setting.limit) (limit : Nat) :
    ofTokens setting tokens ≠ .error (.nestingTooDeep limit) := by
  unfold ofTokens
  split
  · rintro ⟨⟩
  · have hw := (Unlimited.levels_suffices setting (setting.limit + 1)).whole tokens
      (Nat.lt_succ_of_le h)
    generalize (Grammar.levels setting (setting.limit + 1)).whole tokens = found at hw
    cases hw with
    | malformed fault => rintro ⟨⟩
    | @read term rest h => cases rest <;> rintro ⟨⟩

/-- A token that opens a level is spelled with a character that can. -/
private theorem Lexeme.countP_opensLevel {text : List Char} {lexeme : Lexeme}
    (h : read? text = some lexeme) (position : Nat) :
    [Token.mk lexeme.kind position].countP Token.opensLevel ≤
      lexeme.text.countP Arithmetic.opensLevel := by
  unfold read? at h
  split at h
  · cases h
  · split at h
    · obtain rfl := Option.some.inj h
      unfold number
      split <;> exact Nat.zero_le _
    · split at h
      · obtain rfl := Option.some.inj h
        exact Nat.zero_le _
      · obtain ⟨⟨symbol, behind⟩, -, rfl⟩ := Option.map_eq_some_iff.mp h
        cases symbol <;> simp [Token.opensLevel, Symbol.spelling, Arithmetic.opensLevel]

theorem Token.countP_readFrom {offset : Nat} {text : List Char} {tokens : List Token}
    (h : readFrom offset text = .ok tokens) :
    tokens.countP Token.opensLevel ≤ text.countP Arithmetic.opensLevel := by
  fun_induction readFrom offset text generalizing tokens with
  | case1 =>
    obtain rfl := Except.ok.inj h
    exact Nat.le_refl 0
  | case2 offset c rest hc ih => exact Nat.le_trans (ih h) (List.sublist_cons_self c rest).countP_le
  | case3 => cases h
  | case4 => cases h
  | case5 offset c rest hc lexeme hl more hm ih =>
    obtain rfl := Except.ok.inj h
    have htext := congrArg (List.countP Arithmetic.opensLevel) (Lexeme.read?_append hl)
    have hfirst := Lexeme.countP_opensLevel hl offset
    have hothers := ih hm
    rw [List.countP_append] at htext
    rw [← List.singleton_append, List.countP_append]
    omega

namespace Program
variable {source : String} {parameters : List String} {limit more : Nat}

/-- A text that opens no more levels than the limit does not nest too deep. -/
theorem parse_ne_nestingTooDeep (h : source.toList.countP opensLevel ≤ limit) (other : Nat) :
    parse source parameters limit ≠ .error (.nestingTooDeep other) := by
  unfold parse
  dsimp only
  split
  · rintro ⟨⟩
  · rename_i tokens ht
    have hn := @Term.ofTokens_ne_nestingTooDeep ⟨parameters, Source.width source.toList, limit⟩
      tokens (Nat.le_trans (Token.countP_readFrom ht) h) other
    split
    · rename_i fault hf
      rw [hf] at hn
      exact fun he => hn (congrArg Except.error (Except.error.inj he))
    · rintro ⟨⟩

/-- A limit that a text cannot reach may be raised. -/
private theorem parse_raise (h : source.toList.countP opensLevel ≤ limit) (hl : limit ≤ more) :
    parse source parameters limit = parse source parameters more := by
  have hn := @parse_ne_nestingTooDeep source parameters limit h limit
  unfold parse at hn ⊢
  dsimp only at hn ⊢
  split
  · rfl
  · rename_i tokens ht
    have hlimited := Term.ofTokens_limited parameters (Source.width source.toList) hl tokens
    simp only [ht] at hn
    generalize Term.ofTokens ⟨parameters, Source.width source.toList, limit⟩ tokens = found,
      Term.ofTokens ⟨parameters, Source.width source.toList, more⟩ tokens = wider at hlimited hn
    cases hlimited with
    | read value => rfl
    | malformed fault => rfl
    | tooDeep => exact absurd rfl hn

/-- Under limits that a text cannot reach it is read the same. -/
theorem parse_eq_of_le (hl : source.toList.countP opensLevel ≤ limit)
    (hm : source.toList.countP opensLevel ≤ more) :
    parse source parameters limit = parse source parameters more := by
  rcases Nat.le_total limit more with h | h
  · exact parse_raise hl h
  · exact (parse_raise hm h).symm

end Program
end SceneFormula.Arithmetic
