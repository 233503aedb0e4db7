import SceneFormula.Arithmetic.Program
import SceneFormula.Proofs.TokenOffsets

/-! The grammar of arithmetic over tokens that are told by their index. Behind the last token stands
the end of the text, and no rule looks behind that. -/
namespace SceneFormula.Arithmetic

/-- A rule reads a term from an index on, and tells the index behind it. -/
abbrev IndexedRule := Nat → Guarded Fault (Term × Nat)

structure IndexedDeeper where
  whole : IndexedRule
  signed : IndexedRule

def token? (tokens : List Token) (index : Nat) : Option (Option Token) :=
  (tokens.map some ++ [none])[index]?

def Setting.positionOf (setting : Setting) (token : Option Token) : Nat :=
  (token.map Token.position).getD setting.stop

namespace IndexedGrammar
variable (setting : Setting) (tokens : List Token)

def chain (operator? : Symbol → Option Operator) (operand : IndexedRule) (left : Term)
    (index : Nat) : Guarded Fault (Term × Nat) := do
  match ← token? tokens index with
  | some ⟨.symbol symbol, _⟩ =>
    match operator? symbol with
    | none => pure (left, index)
    | some op =>
      let (right, next) ← operand (index + 1)
      if _h : index < next ∧ next ≤ tokens.length then
        chain operator? operand (.binary op left right) next
      else liftM (none : Option (Term × Nat))
  | _ => pure (left, index)
termination_by tokens.length - index

def leftChain (operator? : Symbol → Option Operator) (operand : IndexedRule) : IndexedRule :=
  fun index => do
    let (first, next) ← operand index
    chain tokens operator? operand first next

def moreArguments (argument : IndexedRule) (index : Nat) : Guarded Fault (List Term × Nat) := do
  match ← token? tokens index with
  | some ⟨.symbol .closeParen, _⟩ => pure ([], index + 1)
  | some ⟨.symbol .comma, _⟩ =>
    let (first, next) ← argument (index + 1)
    if _h : index < next ∧ next ≤ tokens.length then do
      let (others, behind) ← moreArguments argument next
      pure (first :: others, behind)
    else liftM (none : Option (List Term × Nat))
  | other => throw (SyntaxFault.unclosedCall (setting.positionOf other)).toFault
termination_by tokens.length - index

def arguments (argument : IndexedRule) (index : Nat) : Guarded Fault (List Term × Nat) := do
  match ← token? tokens index with
  | some ⟨.symbol .closeParen, _⟩ => pure ([], index + 1)
  | _ =>
    let (first, next) ← argument index
    let (others, behind) ← moreArguments setting tokens argument next
    pure (first :: others, behind)

def call (argument : IndexedRule) (name : String) (position index : Nat) :
    Guarded Fault (Term × Nat) :=
  match Builtin.ofName? name with
  | none => throw (SyntaxFault.unknownFunction name position).toFault
  | some function => do
    let (terms, next) ← arguments setting tokens argument index
    if function.accepts terms.length then pure (.call function terms, next)
    else throw (SyntaxFault.wrongArity name terms.length position).toFault

def group (inner : IndexedRule) : IndexedRule := fun index => do
  let (term, next) ← inner index
  match ← token? tokens next with
  | some ⟨.symbol .closeParen, _⟩ => pure (term, next + 1)
  | other => throw (SyntaxFault.unclosedGroup (setting.positionOf other)).toFault

def primary (deeper : IndexedDeeper) : IndexedRule := fun index => do
  match ← token? tokens index with
  | none => throw (SyntaxFault.unexpected "Eof" setting.stop).toFault
  | some ⟨.number value, _⟩ => pure (.number value, index + 1)
  | some ⟨.name name, position⟩ =>
    match ← token? tokens (index + 1) with
    | some ⟨.symbol .openParen, _⟩ =>
      call setting tokens deeper.whole name position (index + 2)
    | _ =>
      match setting.lookUp name with
      | some term => pure (term, index + 1)
      | none => throw (SyntaxFault.unknownVariable name position).toFault
  | some ⟨.symbol .openParen, _⟩ => group setting tokens deeper.whole (index + 1)
  | some ⟨.symbol symbol, position⟩ =>
    throw (SyntaxFault.unexpected symbol.label position).toFault

def power (deeper : IndexedDeeper) : IndexedRule := fun index => do
  let (base, next) ← primary setting tokens deeper index
  match ← token? tokens next with
  | some ⟨.symbol .caret, _⟩ =>
    let (exponent, behind) ← deeper.signed (next + 1)
    pure (.binary .power base exponent, behind)
  | _ => pure (base, next)

def sign (deeper : IndexedDeeper) (op : Sign) : IndexedRule := fun index => do
  let (operand, next) ← deeper.signed index
  pure (.unary op operand, next)

def signed (deeper : IndexedDeeper) : IndexedRule := fun index => do
  match ← token? tokens index with
  | some ⟨.symbol .minus, _⟩ => sign deeper .negate (index + 1)
  | some ⟨.symbol .bang, _⟩ => sign deeper .not (index + 1)
  | _ => power setting tokens deeper index

def whole (deeper : IndexedDeeper) : IndexedRule :=
  Grammar.strengths.foldl (fun operand operator? => leftChain tokens operator? operand)
    (signed setting tokens deeper)

def levels : Nat → IndexedDeeper
  | 0 => ⟨fun _ => throw (.nestingTooDeep setting.limit),
      fun _ => throw (.nestingTooDeep setting.limit)⟩
  | left + 1 => ⟨fun index => whole setting tokens (levels left) index,
      fun index => signed setting tokens (levels left) index⟩

end IndexedGrammar

def Term.ofIndexed (setting : Setting) (tokens : List Token) : Guarded Fault Term := do
  match ← token? tokens 0 with
  | none => throw SyntaxFault.empty.toFault
  | some _ =>
    let (term, next) ← (IndexedGrammar.levels setting tokens (setting.limit + 1)).whole 0
    match ← token? tokens next with
    | none => pure term
    | some token => throw (SyntaxFault.trailing token.position).toFault

inductive Reads {α : Type} (used rest : List Token) :
    Except Fault (α × List Token) → Guarded Fault (α × Nat) → Prop
  | read (value : α) (more : List Token) {behind : List Token} (h : rest = more ++ behind) :
    Reads used rest (.ok (value, behind)) (.of (.ok (value, (used ++ more).length)))
  | refused (fault : Fault) : Reads used rest (.error fault) (.of (.error fault))

theorem Reads.prepend {α : Type} {used first rest : List Token}
    {found : Except Fault (α × List Token)} {indexed : Guarded Fault (α × Nat)}
    (h : Reads (used ++ first) rest found indexed) : Reads used (first ++ rest) found indexed := by
  cases h with
  | refused fault => exact .refused fault
  | @read value more behind h =>
    rw [List.append_assoc]
    exact .read value (first ++ more) (by rw [h, List.append_assoc])

theorem Reads.cons {α : Type} {used rest : List Token} {token : Token}
    {found : Except Fault (α × List Token)} {indexed : Guarded Fault (α × Nat)} :
    Reads (used ++ [token]) rest found indexed → Reads used (token :: rest) found indexed :=
  Reads.prepend

theorem Reads.kept {α : Type} {used rest : List Token} (value : α) :
    Reads used rest (.ok (value, rest)) (.of (.ok (value, used.length))) := by
  simpa using @Reads.read α used rest value [] rest rfl

theorem Reads.one {α : Type} {used rest : List Token} (token : Token) (value : α) :
    Reads used (token :: rest) (.ok (value, rest)) (.of (.ok (value, used.length + 1))) := by
  have hone := @Reads.read α used _ value [token] rest rfl
  rwa [List.length_append] at hone

/-- Either both refuse with one fault, or both read one value off the same tokens. -/
theorem Reads.outcome {α : Type} {used rest : List Token}
    {found : Except Fault (α × List Token)} {indexed : Guarded Fault (α × Nat)} :
    Reads used rest found indexed →
      (∃ fault, found = .error fault ∧ indexed = .of (.error fault)) ∨
      ∃ value more behind, rest = more ++ behind ∧ found = .ok (value, behind) ∧
        indexed = .of (.ok (value, (used ++ more).length))
  | .refused fault => .inl ⟨fault, rfl, rfl⟩
  | .read value more h => .inr ⟨value, more, _, h, rfl, rfl⟩

def Rule.Indexed (tokens : List Token) (rule : Rule) (indexed : IndexedRule) : Prop :=
  ∀ used rest, tokens = used ++ rest → Reads used rest (rule rest) (indexed used.length)

/-- A rule is read behind one more token. -/
theorem Rule.Indexed.behind {tokens used rest : List Token} {rule : Rule} {indexed : IndexedRule}
    (h : rule.Indexed tokens indexed) {token : Token} (ht : tokens = used ++ token :: rest) :
    Reads (used ++ [token]) rest (rule rest) (indexed (used.length + 1)) := by
  have hone := h (used ++ [token]) rest (by rw [ht]; simp)
  rwa [List.length_append] at hone

structure Deeper.Indexed (tokens : List Token) (deeper : Deeper) (indexed : IndexedDeeper) :
    Prop where
  whole : deeper.whole.Indexed tokens indexed.whole
  signed : deeper.signed.Indexed tokens indexed.signed

/-- Behind the tokens that were used stands the first one of the others, or the end. -/
theorem token?_append {tokens used rest : List Token} (ht : tokens = used ++ rest) :
    token? tokens used.length = some rest.head? := by
  subst ht
  rw [token?, List.map_append, List.append_assoc,
    List.getElem?_append_right (by rw [List.length_map]), List.length_map, Nat.sub_self]
  cases rest <;> rfl

/-- Tokens begin with a symbol, or neither they nor their first one do. -/
private theorem begins_or (symbol : Symbol) (rest : List Token) :
    (∃ position others, rest = ⟨.symbol symbol, position⟩ :: others) ∨
      (∀ position others, rest = ⟨.symbol symbol, position⟩ :: others → False) ∧
        ∀ position, rest.head? = some ⟨.symbol symbol, position⟩ → False := by
  by_cases h : ∃ position others, rest = ⟨.symbol symbol, position⟩ :: others
  · exact .inl h
  · refine .inr ⟨fun position others heq => h ⟨position, others, heq⟩, fun position heq => ?_⟩
    obtain ⟨others, heq⟩ := List.head?_eq_some_iff.mp heq
    exact h ⟨position, others, heq⟩

/-- A rule that is read behind one more token leads on, and not behind the end. -/
private theorem leads_on {tokens used more behind : List Token} {token : Token}
    (ht : tokens = used ++ [token] ++ more ++ behind) :
    used.length < (used ++ [token] ++ more).length ∧
      (used ++ [token] ++ more).length ≤ tokens.length := by
  simp only [ht, List.length_append, List.length_singleton]
  omega

namespace IndexedGrammar
variable (setting : Setting) {tokens used rest : List Token}

section Chains
variable {operator? : Symbol → Option Operator} {operand : Rule} {indexed : IndexedRule}

private theorem chain_reads (ho : operand.Indexed tokens indexed) {bound : Nat} (left : Term)
    (ht : tokens = used ++ rest) (hb : rest.length ≤ bound) :
    Reads used rest (Grammar.chain operator? operand bound left rest)
      (chain tokens operator? indexed left used.length) := by
  induction bound generalizing used rest left with
  | zero =>
    obtain rfl := List.length_eq_zero_iff.mp (Nat.le_zero.mp hb)
    rw [chain, token?_append ht]
    exact .kept left
  | succ bound ih =>
    rw [chain, token?_append ht]
    cases rest with
    | nil => exact .kept left
    | cons token rest =>
      obtain ⟨kind, position⟩ := token
      cases kind with
      | number value => exact .kept left
      | name name => exact .kept left
      | symbol symbol =>
        rw [Grammar.chain]
        simp only [List.head?_cons, Guarded.liftM_some_bind]
        cases operator? symbol with
        | none => exact .kept left
        | some op =>
          refine Reads.cons ?_
          obtain ⟨fault, hf, hi⟩ | ⟨right, more, behind, rfl, hf, hi⟩ := (ho.behind ht).outcome
          · simp only [hf, hi, Guarded.of_error_bind]
            exact .refused fault
          · have htokens : tokens = used ++ [⟨.symbol symbol, position⟩] ++ more ++ behind := by
              rw [ht]
              simp
            simp only [hf, hi, Guarded.of_ok_bind, dif_pos (leads_on htokens)]
            simp only [List.length_cons, List.length_append] at hb
            exact (ih _ htokens (by omega)).prepend

private theorem leftChain_reads (ho : operand.Indexed tokens indexed) :
    Rule.Indexed tokens (Grammar.leftChain operator? operand)
      (leftChain tokens operator? indexed) := by
  intro used rest ht
  unfold Grammar.leftChain leftChain
  obtain ⟨fault, hf, hi⟩ | ⟨first, more, behind, rfl, hf, hi⟩ := (ho used rest ht).outcome
  · simp only [hf, hi, Guarded.of_error_bind]
    exact .refused fault
  · simp only [hf, hi, Guarded.of_ok_bind]
    exact (chain_reads ho first (by rw [ht, List.append_assoc]) (Nat.le_refl _)).prepend

end Chains

section Calls
variable {argument : Rule} {indexed : IndexedRule}

private theorem cons_reads (first : Term) {found : Except Fault (List Term × List Token)}
    {others : Guarded Fault (List Term × Nat)} (h : Reads used rest found others) :
    Reads used rest
      (match found with
        | .error fault => .error fault
        | .ok (others, behind) => .ok (first :: others, behind))
      (do
        let (others, behind) ← others
        pure (first :: others, behind)) := by
  cases h with
  | refused fault => exact .refused fault
  | read others more h => exact .read (first :: others) more h

private theorem moreArguments_reads (ha : argument.Indexed tokens indexed) {bound : Nat}
    (ht : tokens = used ++ rest) (hb : rest.length ≤ bound) :
    Reads used rest (Grammar.moreArguments setting argument bound rest)
      (moreArguments setting tokens indexed used.length) := by
  induction bound generalizing used rest with
  | zero =>
    obtain rfl := List.length_eq_zero_iff.mp (Nat.le_zero.mp hb)
    rw [moreArguments, token?_append ht]
    exact .refused _
  | succ bound ih =>
    rw [moreArguments, token?_append ht, Guarded.liftM_some_bind]
    unfold Grammar.moreArguments
    split
    · exact .one _ []
    · rename_i position rest heq
      obtain rfl := Nat.succ.inj heq
      simp only [List.head?_cons]
      refine Reads.cons ?_
      obtain ⟨fault, hf, hi⟩ | ⟨first, more, behind, rfl, hf, hi⟩ := (ha.behind ht).outcome
      · simp only [hf, hi, Guarded.of_error_bind]
        exact .refused fault
      · have htokens : tokens = used ++ [⟨.symbol .comma, position⟩] ++ more ++ behind := by
          rw [ht]
          simp
        simp only [hf, hi, Guarded.of_ok_bind, dif_pos (leads_on htokens)]
        simp only [List.length_cons, List.length_append] at hb
        exact (cons_reads first (ih htokens (by omega))).prepend
    · rename_i hclose hcomma
      split
      · rename_i heq
        obtain ⟨others, rfl⟩ := List.head?_eq_some_iff.mp heq
        exact absurd rfl (hclose _ others)
      · rename_i heq
        obtain ⟨others, rfl⟩ := List.head?_eq_some_iff.mp heq
        exact absurd rfl (hcomma bound _ others rfl)
      · exact .refused _

private theorem arguments_reads (ha : argument.Indexed tokens indexed)
    (ht : tokens = used ++ rest) :
    Reads used rest (Grammar.arguments setting argument rest)
      (arguments setting tokens indexed used.length) := by
  rw [arguments, token?_append ht, Guarded.liftM_some_bind]
  unfold Grammar.arguments
  obtain ⟨position, others, rfl⟩ | ⟨hrest, hhead⟩ := begins_or .closeParen rest
  · exact .one _ []
  obtain ⟨fault, hf, hi⟩ | ⟨first, more, behind, rfl, hf, hi⟩ := (ha used rest ht).outcome
  · simp only [hf, hi, Guarded.of_error_bind]
    exact .refused fault
  · simp only [hf, hi, Guarded.of_ok_bind]
    rw [← List.append_assoc] at ht
    exact (cons_reads first (moreArguments_reads setting ha ht (Nat.le_refl _))).prepend

private theorem call_reads (ha : argument.Indexed tokens indexed) (name : String) (position : Nat)
    (ht : tokens = used ++ rest) :
    Reads used rest (Grammar.call setting argument name position rest)
      (call setting tokens indexed name position used.length) := by
  unfold Grammar.call call
  cases Builtin.ofName? name with
  | none => exact .refused _
  | some function =>
    obtain ⟨fault, hf, hi⟩ | ⟨terms, more, behind, rfl, hf, hi⟩ :=
      (arguments_reads setting ha ht).outcome
    · simp only [hf, hi, Guarded.of_error_bind]
      exact .refused fault
    · simp only [hf, hi, Guarded.of_ok_bind]
      split
      · exact .read _ more rfl
      · exact .refused _

end Calls

private theorem group_reads {inner : Rule} {indexed : IndexedRule}
    (hi : inner.Indexed tokens indexed) :
    Rule.Indexed tokens (Grammar.group setting inner) (group setting tokens indexed) := by
  intro used rest ht
  unfold Grammar.group group
  obtain ⟨fault, hf, hi⟩ | ⟨term, more, behind, rfl, hf, hi⟩ := (hi used rest ht).outcome
  · simp only [hf, hi, Guarded.of_error_bind]
    exact .refused fault
  · rw [← List.append_assoc] at ht
    simp only [hf, hi, Guarded.of_ok_bind, token?_append ht, Guarded.liftM_some_bind]
    refine Reads.prepend ?_
    obtain ⟨position, others, rfl⟩ | ⟨hrest, hhead⟩ := begins_or .closeParen behind
    · exact .one _ term
    · simp only
      exact .refused _

section Levels
variable {deeper : Deeper} {indexed : IndexedDeeper}

private theorem primary_reads (hd : deeper.Indexed tokens indexed) :
    Rule.Indexed tokens (Grammar.primary setting deeper) (primary setting tokens indexed) := by
  intro used rest ht
  unfold primary
  rw [token?_append ht, Guarded.liftM_some_bind]
  cases rest with
  | nil => exact .refused _
  | cons token rest =>
    obtain ⟨kind, position⟩ := token
    have hnext : tokens = used ++ [⟨kind, position⟩] ++ rest := by rw [ht, List.append_assoc]; rfl
    cases kind with
    | number value => exact .one _ _
    | symbol symbol =>
      cases symbol with
      | openParen => exact ((group_reads setting hd.whole).behind ht).cons
      | _ => exact .refused _
    | name name =>
      have hsecond := token?_append hnext
      rw [List.length_append, List.length_singleton] at hsecond
      unfold Grammar.primary
      simp only [List.head?_cons, hsecond, Guarded.liftM_some_bind]
      obtain ⟨opening, others, rfl⟩ | ⟨hrest, hhead⟩ := begins_or .openParen rest
      · have hbehind : tokens = used ++ [⟨.name name, position⟩, ⟨.symbol .openParen, opening⟩] ++
            others := by
          rw [ht, List.append_assoc]
          rfl
        have hcall := call_reads setting hd.whole name position hbehind
        rw [List.length_append] at hcall
        exact hcall.prepend
      · simp only
        cases setting.lookUp name with
        | none => exact .refused _
        | some term => exact .one _ term

private theorem power_reads (hd : deeper.Indexed tokens indexed) :
    Rule.Indexed tokens (Grammar.power setting deeper) (power setting tokens indexed) := by
  intro used rest ht
  unfold Grammar.power power
  obtain ⟨fault, hf, hi⟩ | ⟨base, more, behind, rfl, hf, hi⟩ :=
    (primary_reads setting hd used rest ht).outcome
  · simp only [hf, hi, Guarded.of_error_bind]
    exact .refused fault
  · rw [← List.append_assoc] at ht
    simp only [hf, hi, Guarded.of_ok_bind, token?_append ht, Guarded.liftM_some_bind]
    refine Reads.prepend ?_
    obtain ⟨position, others, rfl⟩ | ⟨hrest, hhead⟩ := begins_or .caret behind
    · obtain ⟨fault, hf, hi⟩ | ⟨exponent, more, behind, rfl, hf, hi⟩ :=
        (hd.signed.behind ht).outcome
      · simp only [List.head?_cons, hf, hi, Guarded.of_error_bind]
        exact .refused fault
      · simp only [List.head?_cons, hf, hi, Guarded.of_ok_bind]
        exact Reads.cons (.read _ more rfl)
    · simp only
      exact .kept base

private theorem sign_reads (hd : deeper.Indexed tokens indexed) (op : Sign) :
    Rule.Indexed tokens (Grammar.sign deeper op) (sign indexed op) := by
  intro used rest ht
  unfold Grammar.sign sign
  obtain ⟨fault, hf, hi⟩ | ⟨operand, more, behind, rfl, hf, hi⟩ := (hd.signed used rest ht).outcome
  · simp only [hf, hi, Guarded.of_error_bind]
    exact .refused fault
  · simp only [hf, hi, Guarded.of_ok_bind]
    exact .read _ more rfl

private theorem signed_reads (hd : deeper.Indexed tokens indexed) :
    Rule.Indexed tokens (Grammar.signed setting deeper) (signed setting tokens indexed) := by
  intro used rest ht
  unfold signed
  rw [token?_append ht, Guarded.liftM_some_bind]
  unfold Grammar.signed
  obtain ⟨position, others, rfl⟩ | ⟨hrest, hhead⟩ := begins_or .minus rest
  · exact ((sign_reads hd .negate).behind ht).cons
  obtain ⟨position, others, rfl⟩ | ⟨hnot, hbang⟩ := begins_or .bang rest
  · exact ((sign_reads hd .not).behind ht).cons
  simp only
  exact power_reads setting hd used rest ht

private theorem whole_reads (hd : deeper.Indexed tokens indexed) :
    Rule.Indexed tokens (Grammar.whole setting deeper) (whole setting tokens indexed) :=
  leftChain_reads <| leftChain_reads <| leftChain_reads <| leftChain_reads <| leftChain_reads <|
    leftChain_reads <| signed_reads setting hd

private theorem levels_read (left : Nat) :
    (Grammar.levels setting left).Indexed tokens (levels setting tokens left) := by
  induction left with
  | zero => exact ⟨fun _ _ _ => .refused _, fun _ _ _ => .refused _⟩
  | succ left ih => exact ⟨whole_reads setting ih, signed_reads setting ih⟩

end Levels
end IndexedGrammar

/-- No rule passes the end of the text. -/
theorem Term.ofIndexed_eq (setting : Setting) (tokens : List Token) :
    Term.ofIndexed setting tokens = .of (Term.ofTokens setting tokens) := by
  have hfirst := token?_append (List.nil_append tokens).symm
  rw [Term.ofIndexed, show token? tokens 0 = _ from hfirst, Guarded.liftM_some_bind]
  cases tokens with
  | nil => rfl
  | cons token rest =>
    unfold Term.ofTokens
    have hwhole := (IndexedGrammar.levels_read setting (setting.limit + 1)).whole []
      (token :: rest) (List.nil_append (token :: rest)).symm
    obtain ⟨fault, hf, hi⟩ | ⟨term, more, behind, hm, hf, hi⟩ := hwhole.outcome
    · simp only [List.length_nil] at hi
      simp only [List.head?_cons, hf, hi, Guarded.of_error_bind]
    · simp only [List.length_nil] at hi
      simp only [List.head?_cons, hf, hi, Guarded.of_ok_bind, List.nil_append, token?_append hm,
        Guarded.liftM_some_bind]
      cases behind <;> rfl

namespace Program

/-- Reads a text by byte offsets, and its tokens by their indices. -/
def readGuarded (source : String) (parameters : List String) (limit : Nat) :
    Guarded Fault Program := do
  let text := source.toList
  let tokens ← ExceptT.adapt SyntaxFault.toFault (Token.readAt text 0 text)
  let term ← Term.ofIndexed ⟨parameters, Source.width text, limit⟩ tokens
  pure ⟨source, parameters, term⟩

theorem readGuarded_eq (source : String) (parameters : List String) (limit : Nat) :
    readGuarded source parameters limit = .of (parse source parameters limit) := by
  have htokens : Token.readAt source.toList 0 source.toList = .of (Token.read source.toList) :=
    Token.readAt_eq (List.nil_append source.toList).symm
  unfold readGuarded parse
  simp only [htokens, Term.ofIndexed_eq, Guarded.adapt_of]
  cases Token.read source.toList with
  | error fault => rfl
  | ok tokens =>
    simp only [Except.mapError, Guarded.of_ok_bind]
    cases Term.ofTokens ⟨parameters, Source.width source.toList, limit⟩ tokens <;> rfl

end Program
end SceneFormula.Arithmetic
