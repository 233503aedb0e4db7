import SceneFormula.Arithmetic.Program

/-! What the limit on levels does to the reading of arithmetic. Under a smaller limit a rule gives
the answer that it gives under a larger one, unless it runs into the limit first. -/
namespace SceneFormula.Arithmetic

/-- An answer under a limit beside the answer under a larger one. -/
inductive Limited {α : Type} (limit : Nat) : Except Fault α → Except Fault α → Prop
  | read (value : α) : Limited limit (.ok value) (.ok value)
  | malformed (fault : SyntaxFault) : Limited limit (Setting.fail fault) (Setting.fail fault)
  | tooDeep (other : Except Fault α) : Limited limit (.error (.nestingTooDeep limit)) other

def Rule.Limited (limit : Nat) (rule other : Rule) : Prop :=
  ∀ tokens, Arithmetic.Limited limit (rule tokens) (other tokens)

structure Deeper.Limited (limit : Nat) (deeper other : Deeper) : Prop where
  whole : deeper.whole.Limited limit other.whole
  signed : deeper.signed.Limited limit other.signed

namespace Limited
open Grammar
variable {limit : Nat}

/-- What is done with a term that was read. -/
private theorem andThen {α : Type} {found wider : Except Fault (Term × List Token)}
    {next behind : Term → List Token → Except Fault α}
    (hn : ∀ term rest, Limited limit (next term rest) (behind term rest)) :
    Limited limit found wider → Limited limit
      (match found with
        | .error fault => .error fault
        | .ok (term, rest) => next term rest)
      (match wider with
        | .error fault => .error fault
        | .ok (term, rest) => behind term rest)
  | .read (term, rest) => hn term rest
  | .malformed fault => .malformed fault
  | .tooDeep _ => .tooDeep _

private theorem cons (first : Term) {found wider : Except Fault (List Term × List Token)} :
    Limited limit found wider → Limited limit
      (match found with
        | .error fault => .error fault
        | .ok (others, rest) => .ok (first :: others, rest))
      (match wider with
        | .error fault => .error fault
        | .ok (others, rest) => .ok (first :: others, rest))
  | .read _ => .read _
  | .malformed fault => .malformed fault
  | .tooDeep _ => .tooDeep _

section Chains
variable {operator? : Symbol → Option Operator} {operand other : Rule}

private theorem chain (ho : operand.Limited limit other) (bound : Nat) (left : Term)
    (tokens : List Token) :
    Limited limit (Grammar.chain operator? operand bound left tokens)
      (Grammar.chain operator? other bound left tokens) := by
  induction bound generalizing left tokens with
  | zero =>
    unfold Grammar.chain
    exact .read _
  | succ bound ih =>
    unfold Grammar.chain
    split
    · rename_i symbol position rest heq
      obtain rfl := Nat.succ.inj heq
      split
      · exact .read _
      · refine andThen (fun right rest => ?_) (ho rest)
        exact ih _ rest
    · exact .read _

private theorem leftChain (ho : operand.Limited limit other) :
    Rule.Limited limit (Grammar.leftChain operator? operand)
      (Grammar.leftChain operator? other) := by
  intro tokens
  unfold Grammar.leftChain
  refine andThen (fun first rest => ?_) (ho tokens)
  exact chain ho _ first rest

end Chains

section Levels
variable (parameters : List String) (stop more : Nat) {deeper other : Deeper}

private theorem moreArguments {argument wider : Rule} (ha : argument.Limited limit wider)
    (bound : Nat) (tokens : List Token) :
    Limited limit (Grammar.moreArguments ⟨parameters, stop, limit⟩ argument bound tokens)
      (Grammar.moreArguments ⟨parameters, stop, more⟩ wider bound tokens) := by
  induction bound generalizing tokens with
  | zero =>
    unfold Grammar.moreArguments
    split
    · exact .read _
    · contradiction
    · exact .malformed _
  | succ bound ih =>
    unfold Grammar.moreArguments
    split
    · exact .read _
    · rename_i rest heq
      obtain rfl := Nat.succ.inj heq
      refine andThen (fun first rest => ?_) (ha rest)
      exact cons first (ih rest)
    · exact .malformed _

private theorem arguments {argument wider : Rule} (ha : argument.Limited limit wider)
    (tokens : List Token) :
    Limited limit (Grammar.arguments ⟨parameters, stop, limit⟩ argument tokens)
      (Grammar.arguments ⟨parameters, stop, more⟩ wider tokens) := by
  unfold Grammar.arguments
  split
  · exact .read _
  · refine andThen (fun first rest => ?_) (ha tokens)
    exact cons first (moreArguments parameters stop more ha rest.length rest)

private theorem call {argument wider : Rule} (ha : argument.Limited limit wider) (name : String)
    (position : Nat) (tokens : List Token) :
    Limited limit (Grammar.call ⟨parameters, stop, limit⟩ argument name position tokens)
      (Grammar.call ⟨parameters, stop, more⟩ wider name position tokens) := by
  unfold Grammar.call
  split
  · exact .malformed _
  · have hl := arguments parameters stop more ha tokens
    generalize Grammar.arguments _ argument _ = found, Grammar.arguments _ wider _ = behind at hl
    cases hl with
    | malformed fault => exact .malformed fault
    | tooDeep wider => exact .tooDeep _
    | read value =>
      dsimp only
      split
      · exact .read _
      · exact .malformed _

private theorem group {inner wider : Rule} (hi : inner.Limited limit wider) :
    Rule.Limited limit (Grammar.group ⟨parameters, stop, limit⟩ inner)
      (Grammar.group ⟨parameters, stop, more⟩ wider) := by
  intro tokens
  unfold Grammar.group
  have hf := hi tokens
  generalize inner tokens = found, wider tokens = behind at hf
  cases hf with
  | malformed fault => exact .malformed fault
  | tooDeep wider => exact .tooDeep _
  | read value =>
    obtain ⟨term, rest⟩ := value
    split
    · contradiction
    · rename_i heq
      cases heq
      exact .read _
    · rename_i heq
      cases heq
      exact .malformed _

private theorem primary (hd : deeper.Limited limit other) :
    Rule.Limited limit (Grammar.primary ⟨parameters, stop, limit⟩ deeper)
      (Grammar.primary ⟨parameters, stop, more⟩ other) := by
  intro tokens
  unfold Grammar.primary
  split
  · exact .malformed _
  · exact .read _
  · exact call parameters stop more hd.whole _ _ _
  · unfold Setting.lookUp
    dsimp only
    split
    · exact .read _
    · exact .malformed _
  · exact group parameters stop more hd.whole _
  · exact .malformed _

private theorem power (hd : deeper.Limited limit other) :
    Rule.Limited limit (Grammar.power ⟨parameters, stop, limit⟩ deeper)
      (Grammar.power ⟨parameters, stop, more⟩ other) := by
  intro tokens
  unfold Grammar.power
  have hb := primary parameters stop more hd tokens
  generalize Grammar.primary _ deeper _ = found, Grammar.primary _ other _ = behind at hb
  cases hb with
  | malformed fault => exact .malformed fault
  | tooDeep wider => exact .tooDeep _
  | read value =>
    obtain ⟨term, rest⟩ := value
    split
    · contradiction
    · rename_i heq
      cases heq
      rename_i rest
      refine andThen (fun exponent rest => ?_) (hd.signed rest)
      exact .read _
    · rename_i heq
      cases heq
      exact .read _

private theorem sign (hd : deeper.Limited limit other) (op : Sign) :
    Rule.Limited limit (Grammar.sign deeper op) (Grammar.sign other op) := by
  intro tokens
  unfold Grammar.sign
  refine andThen (fun operand rest => ?_) (hd.signed tokens)
  exact .read _

private theorem signed (hd : deeper.Limited limit other) :
    Rule.Limited limit (Grammar.signed ⟨parameters, stop, limit⟩ deeper)
      (Grammar.signed ⟨parameters, stop, more⟩ other) := by
  intro tokens
  unfold Grammar.signed
  split
  · exact sign hd .negate _
  · exact sign hd .not _
  · exact power parameters stop more hd _

private theorem whole (hd : deeper.Limited limit other) :
    Rule.Limited limit (Grammar.whole ⟨parameters, stop, limit⟩ deeper)
      (Grammar.whole ⟨parameters, stop, more⟩ other) :=
  leftChain (leftChain (leftChain (leftChain (leftChain (leftChain
    (signed parameters stop more hd))))))

/-- With more levels left, and a larger limit to be named, the rules answer the same. -/
theorem levels {left wider : Nat} (hl : left ≤ wider) :
    (Grammar.levels ⟨parameters, stop, limit⟩ left).Limited limit
      (Grammar.levels ⟨parameters, stop, more⟩ wider) := by
  induction left generalizing wider with
  | zero => exact ⟨fun _ => .tooDeep _, fun _ => .tooDeep _⟩
  | succ left ih =>
    obtain ⟨wider, rfl⟩ : ∃ w, wider = w + 1 := ⟨wider - 1, by omega⟩
    have hd := ih (Nat.le_of_succ_le_succ hl)
    exact ⟨whole parameters stop more hd, signed parameters stop more hd⟩

end Levels
end Limited

/-- Tokens are read the same under a larger limit, unless they run into the smaller one. -/
theorem Term.ofTokens_limited (parameters : List String) (stop : Nat) {limit more : Nat}
    (hl : limit ≤ more) (tokens : List Token) :
    Limited limit (Term.ofTokens ⟨parameters, stop, limit⟩ tokens)
      (Term.ofTokens ⟨parameters, stop, more⟩ tokens) := by
  unfold Term.ofTokens
  split
  · exact .malformed _
  · have hw : Limited limit _ _ :=
      (Limited.levels parameters stop more (Nat.succ_le_succ hl)).whole tokens
    generalize (Grammar.levels ⟨parameters, stop, limit⟩ (limit + 1)).whole tokens = found,
      (Grammar.levels ⟨parameters, stop, more⟩ (more + 1)).whole tokens = wider at hw
    cases hw with
    | malformed fault => exact .malformed fault
    | tooDeep wider => exact .tooDeep _
    | read value =>
      obtain ⟨term, _ | ⟨token, rest⟩⟩ := value
      · exact .read _
      · exact .malformed _

/-- What is wrong with arithmetic has no place in the text. -/
theorem Program.position_of_parse {source : String} {parameters : List String} {limit : Nat}
    {fault : Fault} (h : Program.parse source parameters limit = .error fault) :
    fault.position = none := by
  unfold Program.parse at h
  dsimp only at h
  split at h
  · obtain rfl := Except.error.inj h
    rfl
  · rename_i tokens _
    have hl := Term.ofTokens_limited parameters (Source.width source.toList) (Nat.le_refl limit)
      tokens
    split at h
    · rename_i found hf
      obtain rfl := Except.error.inj h
      rw [hf] at hl
      cases hl <;> rfl
    · contradiction

end SceneFormula.Arithmetic
