import SceneFormula.Arithmetic.Program
import SceneFormula.Proofs.Derivation

/-! The rules of arithmetic read exactly what the grammar derives. A rule stops where no symbol
that it would go on with follows, and then it has read the only derivation there is. -/
namespace SceneFormula.Arithmetic

def Stops (blocked : Symbol → Prop) (rest : List Token) : Prop :=
  ∀ symbol, rest.head?.map Token.kind = some (.symbol symbol) → ¬ blocked symbol

theorem Stops.nil (blocked : Symbol → Prop) : Stops blocked [] := by
  intro symbol h
  simp at h

theorem Stops.cons_symbol {blocked : Symbol → Prop} {symbol : Symbol} {position : Nat}
    {rest : List Token} (h : ¬ blocked symbol) :
    Stops blocked (⟨.symbol symbol, position⟩ :: rest) := by
  intro other ho
  obtain rfl : symbol = other := by simpa using ho
  exact h

theorem Stops.mono {blocked more : Symbol → Prop} {rest : List Token} (h : Stops more rest)
    (hm : ∀ symbol, blocked symbol → more symbol) : Stops blocked rest :=
  fun symbol hs hb => h symbol hs (hm symbol hb)

/-- A rule reads what a reading accounts for, and goes on as long as a blocked symbol follows. No
term starts with a closing parenthesis. -/
structure Rule.Exact (rule : Rule) (reading : Reading) (blocked : Symbol → Prop) : Prop where
  starts {kinds : List TokenKind} {term : Term} (h : reading kinds term) :
    ∃ kind more, kinds = kind :: more ∧ kind ≠ .symbol .closeParen
  sound {tokens rest : List Token} {term : Term} (h : rule tokens = .ok (term, rest)) :
    ∃ used, tokens = used ++ rest ∧ reading (used.map Token.kind) term
  complete {used rest : List Token} {term : Term} (h : reading (used.map Token.kind) term)
    (hs : Stops blocked rest) : rule (used ++ rest) = .ok (term, rest)

namespace Grammar
open Reading

section Chains
variable {operator? : Symbol → Option Operator} {operand : Rule} {reading : Reading}
  {blocked : Symbol → Prop}

private theorem chain_sound (ho : operand.Exact reading blocked) {bound : Nat} {left term : Term}
    {tokens rest : List Token} (h : chain operator? operand bound left tokens = .ok (term, rest)) :
    ∃ used, tokens = used ++ rest ∧ ∀ kinds, Chain operator? reading kinds left →
      Chain operator? reading (kinds ++ used.map Token.kind) term := by
  fun_induction chain operator? operand bound left tokens with
  | case1 =>
    obtain ⟨rfl, rfl⟩ := Prod.mk.inj (Except.ok.inj h)
    exact ⟨[], rfl, fun kinds hk => by simpa using hk⟩
  | case2 => simp at h
  | case3 bound left symbol position tokens op hop right behind hr ih =>
    obtain ⟨used, rfl, hu⟩ := ho.sound hr
    obtain ⟨more, rfl, hm⟩ := ih h
    refine ⟨⟨.symbol symbol, position⟩ :: (used ++ more), by simp, ?_⟩
    intro kinds hk
    have := hm _ (.more hk hop hu)
    simpa using this
  | case4 =>
    obtain ⟨rfl, rfl⟩ := Prod.mk.inj (Except.ok.inj h)
    exact ⟨[], rfl, fun kinds hk => by simpa using hk⟩

private theorem chain_stop {bound : Nat} {term : Term} {tail : List Token}
    (h : Stops (fun symbol => (operator? symbol).isSome) tail) :
    chain operator? operand bound term tail = .ok (term, tail) := by
  unfold chain
  split
  · rename_i symbol position rest
    have := h symbol rfl
    cases ho : operator? symbol with
    | none => rfl
    | some op => simp [ho] at this
  · rfl

/-- A chain is read from the left: once a chain is read, reading goes on with it as the left
operand. This is what an induction on chains carries. -/
private theorem leftChain_append (ho : operand.Exact reading blocked)
    (hb : ∀ symbol, (operator? symbol).isSome → ¬ blocked symbol)
    {kinds : List TokenKind} {term : Term} (h : Chain operator? reading kinds term)
    {used tail : List Token} (hu : used.map Token.kind = kinds) (ht : Stops blocked tail) :
    ∃ bound, tail.length ≤ bound ∧
      leftChain operator? operand (used ++ tail) = chain operator? operand bound term tail := by
  induction h generalizing used tail with
  | one h =>
    have hr := ho.complete (hu ▸ h) ht
    exact ⟨tail.length, Nat.le_refl _, by simp only [leftChain, hr]⟩
  | @more kinds more left right symbol op hl hop hr ih =>
    obtain ⟨first, behind, rfl, hf, hbehind⟩ := List.map_eq_append_iff.mp hu
    obtain ⟨⟨kind, position⟩, second, rfl, hk, hsecond⟩ := List.map_eq_cons_iff.mp hbehind
    obtain rfl : kind = .symbol symbol := hk
    have htail : Stops blocked (⟨.symbol symbol, position⟩ :: (second ++ tail)) :=
      .cons_symbol (hb symbol (by simp [hop]))
    obtain ⟨bound, hle, he⟩ := ih hf htail
    obtain ⟨bound, rfl⟩ : ∃ b, bound = b + 1 := ⟨bound - 1, by simp at hle; omega⟩
    refine ⟨bound, by simp at hle; omega, ?_⟩
    rw [List.append_assoc, List.cons_append, he, chain, hop]
    simp only [ho.complete (hsecond ▸ hr) ht]

theorem exact_leftChain (ho : operand.Exact reading blocked)
    (hb : ∀ symbol, (operator? symbol).isSome → ¬ blocked symbol) :
    Rule.Exact (leftChain operator? operand) (Chain operator? reading)
      (fun symbol => blocked symbol ∨ (operator? symbol).isSome) where
  starts {kinds term} h := by
    induction h with
    | one h => exact ho.starts h
    | more hl hop hr ih =>
      obtain ⟨kind, more, rfl, hk⟩ := ih
      exact ⟨kind, _, rfl, hk⟩
  sound {tokens rest term} h := by
    unfold leftChain at h
    split at h
    · simp at h
    · rename_i first behind hf
      obtain ⟨used, rfl, hu⟩ := ho.sound hf
      obtain ⟨more, rfl, hm⟩ := chain_sound ho h
      refine ⟨used ++ more, by simp, ?_⟩
      rw [List.map_append]
      exact hm _ (.one hu)
  complete {used rest term} h hs := by
    obtain ⟨bound, -, he⟩ := leftChain_append ho hb h rfl (hs.mono fun _ => Or.inl)
    rw [he]
    exact chain_stop (hs.mono fun _ => Or.inr)

end Chains

section Layers
variable {setting : Setting} {deeper : Deeper} {whole signed reading : Reading}
  {blocked : Symbol → Prop}

def opensCall (symbol : Symbol) : Prop :=
  symbol = .openParen

def extendsPower (symbol : Symbol) : Prop :=
  symbol = .openParen ∨ symbol = .caret

private theorem moreArguments_sound {argument : Rule} (ha : argument.Exact reading blocked)
    {bound : Nat} {tokens rest : List Token} {terms : List Term}
    (h : moreArguments setting argument bound tokens = .ok (terms, rest)) :
    ∃ used, tokens = used ++ rest ∧
      ((terms = [] ∧ used.map Token.kind = [.symbol .closeParen]) ∨
        ∃ kinds, Listed reading kinds terms ∧
          used.map Token.kind = .symbol .comma :: (kinds ++ [.symbol .closeParen])) := by
  fun_induction moreArguments setting argument bound tokens generalizing terms with
  | case1 bound position behind =>
    obtain ⟨rfl, rfl⟩ := Prod.mk.inj (Except.ok.inj h)
    exact ⟨[⟨.symbol .closeParen, position⟩], rfl, .inl ⟨rfl, rfl⟩⟩
  | case2 => simp at h
  | case3 => simp at h
  | case4 bound position behind first middle hf others final hm ih =>
    obtain ⟨rfl, rfl⟩ := Prod.mk.inj (Except.ok.inj h)
    obtain ⟨used, rfl, hu⟩ := ha.sound hf
    obtain ⟨more, rfl, hk⟩ := ih hm
    refine ⟨⟨.symbol .comma, position⟩ :: (used ++ more), by simp, .inr ?_⟩
    rcases hk with ⟨rfl, hk⟩ | ⟨kinds, hl, hk⟩
    · exact ⟨used.map Token.kind, .last hu, by simp [hk]⟩
    · exact ⟨used.map Token.kind ++ .symbol .comma :: kinds, .more hu hl, by simp [hk]⟩
  | case5 => simp [Setting.fail] at h

private theorem arguments_sound {argument : Rule} (ha : argument.Exact reading blocked)
    {tokens rest : List Token} {terms : List Term}
    (h : arguments setting argument tokens = .ok (terms, rest)) :
    ∃ used kinds, tokens = used ++ rest ∧ Arguments reading kinds terms ∧
      used.map Token.kind = kinds ++ [.symbol .closeParen] := by
  unfold arguments at h
  split at h
  · rename_i position behind
    obtain ⟨rfl, rfl⟩ := Prod.mk.inj (Except.ok.inj h)
    exact ⟨[⟨.symbol .closeParen, position⟩], [], rfl, .none, rfl⟩
  · split at h
    · simp at h
    · rename_i first behind hf
      split at h
      · simp at h
      · rename_i others final hm
        obtain ⟨rfl, rfl⟩ := Prod.mk.inj (Except.ok.inj h)
        obtain ⟨used, rfl, hu⟩ := ha.sound hf
        obtain ⟨more, rfl, hk⟩ := moreArguments_sound ha hm
        rcases hk with ⟨rfl, hk⟩ | ⟨kinds, hl, hk⟩
        · exact ⟨used ++ more, _, by simp, .some (.last hu), by simp [hk]⟩
        · exact ⟨used ++ more, _, by simp, .some (.more hu hl), by simp [hk]⟩

private theorem listed_complete {argument : Rule} (ha : argument.Exact reading blocked)
    (hb : ¬ blocked .comma ∧ ¬ blocked .closeParen) {kinds : List TokenKind} {terms : List Term}
    (h : Listed reading kinds terms) (setting : Setting) (position : Nat) (rest : List Token)
    {used : List Token} (hu : used.map Token.kind = kinds) :
    ∃ first others behind, terms = first :: others ∧
      argument (used ++ ⟨.symbol .closeParen, position⟩ :: rest) = .ok (first, behind) ∧
      ∀ bound, behind.length ≤ bound →
        moreArguments setting argument bound behind = .ok (others, rest) := by
  induction h generalizing used with
  | @last kinds term h =>
    refine ⟨term, [], _, rfl, ha.complete (hu ▸ h) (.cons_symbol hb.2), fun bound _ => ?_⟩
    unfold moreArguments
    rfl
  | @more kinds others term terms h ht ih =>
    obtain ⟨before, behind, rfl, hf, hbehind⟩ := List.map_eq_append_iff.mp hu
    obtain ⟨⟨kind, place⟩, second, rfl, hk, hsecond⟩ := List.map_eq_cons_iff.mp hbehind
    obtain rfl : kind = .symbol .comma := hk
    obtain ⟨first, more, final, rfl, hfirst, hmore⟩ := ih hsecond
    refine ⟨term, first :: more,
      ⟨.symbol .comma, place⟩ :: (second ++ ⟨.symbol .closeParen, position⟩ :: rest), rfl, ?_,
      fun bound hle => ?_⟩
    · rw [List.append_assoc, List.cons_append]
      exact ha.complete (hf ▸ h) (.cons_symbol hb.1)
    · obtain ⟨consumed, hc, -⟩ := ha.sound hfirst
      have hl := congrArg List.length hc
      simp only [List.length_append, List.length_cons] at hl hle
      obtain ⟨bound, rfl⟩ : ∃ b, bound = b + 1 := ⟨bound - 1, by omega⟩
      simp only [moreArguments, hfirst, hmore bound (by omega)]

private theorem arguments_complete {argument : Rule} (ha : argument.Exact reading blocked)
    (hb : ¬ blocked .comma ∧ ¬ blocked .closeParen) {used : List Token} {terms : List Term}
    (h : Arguments reading (used.map Token.kind) terms) (setting : Setting) (position : Nat)
    (rest : List Token) :
    arguments setting argument (used ++ ⟨.symbol .closeParen, position⟩ :: rest) =
      .ok (terms, rest) := by
  generalize hk : used.map Token.kind = kinds at h
  cases h with
  | none =>
    obtain rfl := List.map_eq_nil_iff.mp hk
    rfl
  | some h =>
    have hs : ∃ kind more, kinds = kind :: more ∧ kind ≠ .symbol .closeParen := by
      cases h with
      | last h => exact ha.starts h
      | more h _ =>
        obtain ⟨kind, more, rfl, hn⟩ := ha.starts h
        exact ⟨kind, _, rfl, hn⟩
    obtain ⟨first, others, behind, rfl, hf, hm⟩ :=
      listed_complete ha hb h setting position rest hk
    unfold arguments
    split
    · rename_i heq
      obtain ⟨kind, more, rfl, hn⟩ := hs
      obtain ⟨⟨_, _⟩, _, rfl, rfl, -⟩ := List.map_eq_cons_iff.mp hk
      simp at heq
      exact absurd heq.1.1 hn
    · simp only [hf, hm _ (Nat.le_refl _)]

private theorem call_sound {argument : Rule} (ha : argument.Exact reading blocked)
    {name : String} {position : Nat} {tokens rest : List Token} {term : Term}
    (h : call setting argument name position tokens = .ok (term, rest)) :
    ∃ used kinds function terms, tokens = used ++ rest ∧ term = .call function terms ∧
      Builtin.ofName? name = some function ∧ Arguments reading kinds terms ∧
      function.accepts terms.length = true ∧
      used.map Token.kind = kinds ++ [.symbol .closeParen] := by
  unfold call at h
  split at h
  · simp [Setting.fail] at h
  · rename_i function hf
    split at h
    · simp at h
    · rename_i terms behind harg
      split at h
      · rename_i hacc
        obtain ⟨rfl, rfl⟩ := Prod.mk.inj (Except.ok.inj h)
        obtain ⟨used, kinds, rfl, hk, hu⟩ := arguments_sound ha harg
        exact ⟨used, kinds, function, terms, rfl, rfl, hf, hk, hacc, hu⟩
      · simp [Setting.fail] at h

private theorem lookUp_sound {name : String} {term : Term} (h : setting.lookUp name = some term) :
    Primary setting.parameters whole [.name name] term := by
  unfold Setting.lookUp at h
  split at h
  · rename_i index hi
    obtain rfl := Option.some.inj h
    exact .parameter hi
  · rename_i hn
    obtain ⟨value, hv, rfl⟩ := Option.map_eq_some_iff.mp h
    exact .constant hn hv

private theorem primary_sound (hw : deeper.whole.Exact whole blocked) {tokens rest : List Token}
    {term : Term} (h : primary setting deeper tokens = .ok (term, rest)) :
    ∃ used, tokens = used ++ rest ∧
      Primary setting.parameters whole (used.map Token.kind) term := by
  unfold primary at h
  split at h
  · simp [Setting.fail] at h
  · rename_i value position behind
    obtain ⟨rfl, rfl⟩ := Prod.mk.inj (Except.ok.inj h)
    exact ⟨[⟨.number value, position⟩], rfl, .number value⟩
  · rename_i name position opening behind
    obtain ⟨used, kinds, function, terms, rfl, rfl, hf, hk, hacc, hu⟩ := call_sound hw h
    refine ⟨⟨.name name, position⟩ :: ⟨.symbol .openParen, opening⟩ :: used, rfl, ?_⟩
    simpa [hu] using Primary.call hf hk hacc
  · rename_i name position behind _
    split at h
    · rename_i found hl
      obtain ⟨rfl, rfl⟩ := Prod.mk.inj (Except.ok.inj h)
      exact ⟨[⟨.name name, position⟩], rfl, lookUp_sound hl⟩
    · simp [Setting.fail] at h
  · rename_i position behind
    unfold group at h
    split at h
    · simp at h
    · rename_i inner closing final hi
      obtain ⟨rfl, rfl⟩ := Prod.mk.inj (Except.ok.inj h)
      obtain ⟨used, rfl, hu⟩ := hw.sound hi
      refine ⟨⟨.symbol .openParen, position⟩ :: (used ++ [⟨.symbol .closeParen, closing⟩]),
        by simp, ?_⟩
      simpa using Primary.group hu
    · simp [Setting.fail] at h
  · simp [Setting.fail] at h

private theorem primary_name {name : String} {position : Nat} {rest : List Token} {term : Term}
    (h : setting.lookUp name = some term) (hs : Stops opensCall rest) :
    primary setting deeper (⟨.name name, position⟩ :: rest) = .ok (term, rest) := by
  unfold primary
  split
  · rename_i heq; cases heq
  · rename_i heq; cases heq
  · rename_i opening behind heq
    cases heq
    exact absurd rfl (hs .openParen rfl)
  · rename_i heq
    cases heq
    rw [h]
  · rename_i heq; cases heq
  · rename_i heq; cases heq

private theorem primary_complete (hw : deeper.whole.Exact whole blocked)
    (hb : ¬ blocked .comma ∧ ¬ blocked .closeParen) {used rest : List Token} {term : Term}
    (h : Primary setting.parameters whole (used.map Token.kind) term)
    (hs : Stops opensCall rest) : primary setting deeper (used ++ rest) = .ok (term, rest) := by
  generalize hk : used.map Token.kind = kinds at h
  cases h with
  | number value =>
    obtain ⟨⟨_, position⟩, _, rfl, rfl, ht⟩ := List.map_eq_cons_iff.mp hk
    obtain rfl := List.map_eq_nil_iff.mp ht
    rfl
  | @parameter name index hi =>
    obtain ⟨⟨_, position⟩, _, rfl, rfl, ht⟩ := List.map_eq_cons_iff.mp hk
    obtain rfl := List.map_eq_nil_iff.mp ht
    exact primary_name (by simp [Setting.lookUp, hi]) hs
  | @constant name value hn hv =>
    obtain ⟨⟨_, position⟩, _, rfl, rfl, ht⟩ := List.map_eq_cons_iff.mp hk
    obtain rfl := List.map_eq_nil_iff.mp ht
    exact primary_name (by simp [Setting.lookUp, hn, hv]) hs
  | @call name function kinds terms hf ha hacc =>
    obtain ⟨⟨_, position⟩, _, rfl, rfl, ht⟩ := List.map_eq_cons_iff.mp hk
    obtain ⟨⟨_, opening⟩, _, rfl, ho, hi⟩ := List.map_eq_cons_iff.mp ht
    obtain rfl : _ = TokenKind.symbol .openParen := ho
    obtain ⟨inner, closing, rfl, rfl, hc⟩ := List.map_eq_append_iff.mp hi
    obtain ⟨⟨_, place⟩, _, rfl, hp, hnil⟩ := List.map_eq_cons_iff.mp hc
    obtain rfl : _ = TokenKind.symbol .closeParen := hp
    obtain rfl := List.map_eq_nil_iff.mp hnil
    have harg := arguments_complete hw hb ha setting place rest
    simp only [List.cons_append, List.append_assoc, List.nil_append, primary, call, hf, harg, hacc,
      if_true]
  | @group kinds term hg =>
    obtain ⟨⟨_, position⟩, _, rfl, rfl, hi⟩ := List.map_eq_cons_iff.mp hk
    obtain ⟨inner, closing, rfl, rfl, hc⟩ := List.map_eq_append_iff.mp hi
    obtain ⟨⟨_, place⟩, _, rfl, hp, hnil⟩ := List.map_eq_cons_iff.mp hc
    obtain rfl : _ = TokenKind.symbol .closeParen := hp
    obtain rfl := List.map_eq_nil_iff.mp hnil
    have hwhole : deeper.whole (inner ++ ⟨.symbol .closeParen, place⟩ :: rest) =
        .ok (term, ⟨.symbol .closeParen, place⟩ :: rest) :=
      hw.complete hg (.cons_symbol hb.2)
    simp only [List.cons_append, List.append_assoc, List.nil_append, primary, group, hwhole]

private theorem exact_primary (hw : deeper.whole.Exact whole blocked)
    (hb : ¬ blocked .comma ∧ ¬ blocked .closeParen) :
    Rule.Exact (primary setting deeper) (Primary setting.parameters whole) opensCall where
  starts h := by
    cases h <;> exact ⟨_, _, rfl, by simp⟩
  sound := primary_sound hw
  complete := primary_complete hw hb

private theorem exact_power (hw : deeper.whole.Exact whole blocked)
    (hb : ¬ blocked .comma ∧ ¬ blocked .closeParen)
    (hd : deeper.signed.Exact signed extendsPower) :
    Rule.Exact (power setting deeper) (Power (Primary setting.parameters whole) signed)
      extendsPower where
  starts h := by
    cases h with
    | base h => exact (exact_primary hw hb).starts h
    | raised h _ =>
      obtain ⟨kind, more, rfl, hk⟩ := (exact_primary hw hb).starts h
      exact ⟨kind, _, rfl, hk⟩
  sound {tokens rest term} h := by
    unfold power at h
    split at h
    · simp at h
    · rename_i base position behind hp
      obtain ⟨used, rfl, hu⟩ := primary_sound hw hp
      split at h
      · simp at h
      · rename_i exponent final he
        obtain ⟨rfl, rfl⟩ := Prod.mk.inj (Except.ok.inj h)
        obtain ⟨more, rfl, hm⟩ := hd.sound he
        refine ⟨used ++ ⟨.symbol .caret, position⟩ :: more, by simp, ?_⟩
        simpa using Power.raised hu hm
    · rename_i base behind _ hp
      obtain ⟨rfl, rfl⟩ := Prod.mk.inj (Except.ok.inj h)
      obtain ⟨used, rfl, hu⟩ := primary_sound hw hp
      exact ⟨used, rfl, .base hu⟩
  complete {used rest term} h hs := by
    generalize hk : used.map Token.kind = kinds at h
    cases h with
    | base h =>
      have hp : primary setting deeper (used ++ rest) = .ok (term, rest) :=
        primary_complete hw hb (hk ▸ h) (hs.mono fun _ => Or.inl)
      unfold power
      rw [hp]
      split
      · rename_i heq; cases heq
      · rename_i base position behind heq
        cases heq
        exact absurd (Or.inr rfl) (hs .caret rfl)
      · rename_i heq; cases heq; rfl
    | @raised kinds more base exponent h he =>
      obtain ⟨first, behind, rfl, rfl, hbehind⟩ := List.map_eq_append_iff.mp hk
      obtain ⟨⟨_, position⟩, second, rfl, hc, rfl⟩ := List.map_eq_cons_iff.mp hbehind
      obtain rfl : _ = TokenKind.symbol .caret := hc
      have hp : primary setting deeper (first ++ ⟨.symbol .caret, position⟩ :: (second ++ rest)) =
          .ok (base, ⟨.symbol .caret, position⟩ :: (second ++ rest)) :=
        primary_complete hw hb h (.cons_symbol (by simp [opensCall]))
      simp only [List.append_assoc, List.cons_append, power, hp, hd.complete he hs]

private theorem exact_signed (hw : deeper.whole.Exact whole blocked)
    (hb : ¬ blocked .comma ∧ ¬ blocked .closeParen)
    (hd : deeper.signed.Exact signed extendsPower) :
    Rule.Exact (Grammar.signed setting deeper)
      (Signed (Power (Primary setting.parameters whole) signed) signed) extendsPower where
  starts h := by
    cases h with
    | power h => exact (exact_power hw hb hd).starts h
    | negate _ => exact ⟨_, _, rfl, by simp⟩
    | not _ => exact ⟨_, _, rfl, by simp⟩
  sound {tokens rest term} h := by
    have sign_sound {op : Sign} {behind : List Token}
        (h : sign deeper op behind = .ok (term, rest)) :
        ∃ used operand, behind = used ++ rest ∧ term = .unary op operand ∧
          signed (used.map Token.kind) operand := by
      unfold sign at h
      split at h
      · simp at h
      · rename_i operand final ho
        obtain ⟨rfl, rfl⟩ := Prod.mk.inj (Except.ok.inj h)
        obtain ⟨used, rfl, hu⟩ := hd.sound ho
        exact ⟨used, operand, rfl, rfl, hu⟩
    unfold Grammar.signed at h
    split at h
    · rename_i position behind
      obtain ⟨used, operand, rfl, rfl, hu⟩ := sign_sound h
      exact ⟨⟨.symbol .minus, position⟩ :: used, rfl, .negate hu⟩
    · rename_i position behind
      obtain ⟨used, operand, rfl, rfl, hu⟩ := sign_sound h
      exact ⟨⟨.symbol .bang, position⟩ :: used, rfl, .not hu⟩
    · obtain ⟨used, rfl, hu⟩ := (exact_power hw hb hd).sound h
      exact ⟨used, rfl, .power hu⟩
  complete {used rest term} h hs := by
    generalize hk : used.map Token.kind = kinds at h
    cases h with
    | power h =>
      have hp := (exact_power hw hb hd).complete (hk ▸ h) hs
      unfold Grammar.signed
      split
      · rename_i position behind heq
        rw [heq] at hp
        simp [power, primary, Setting.fail] at hp
      · rename_i position behind heq
        rw [heq] at hp
        simp [power, primary, Setting.fail] at hp
      · exact hp
    | negate h =>
      obtain ⟨⟨_, position⟩, behind, rfl, rfl, rfl⟩ := List.map_eq_cons_iff.mp hk
      simp only [List.cons_append, Grammar.signed, sign, hd.complete h hs]
    | not h =>
      obtain ⟨⟨_, position⟩, behind, rfl, rfl, rfl⟩ := List.map_eq_cons_iff.mp hk
      simp only [List.cons_append, Grammar.signed, sign, hd.complete h hs]

end Layers

section Levels
variable {setting : Setting} {deeper : Deeper} {readings : Readings}

def extendsTerm (symbol : Symbol) : Prop :=
  extendsPower symbol ∨ ∃ operator? ∈ strengths, (operator? symbol).isSome

private theorem exact_whole {signed : Reading}
    (hs : Rule.Exact (Grammar.signed setting deeper) signed extendsPower) :
    (Grammar.whole setting deeper).Exact (chains signed) extendsTerm := by
  have hproduct : Rule.Exact (leftChain productOp _) (Chain productOp _) _ :=
    exact_leftChain hs (by intro symbol; cases symbol <;> simp [extendsPower, productOp])
  have hsum : Rule.Exact (leftChain sumOp _) (Chain sumOp _) _ :=
    exact_leftChain hproduct (by
      intro symbol; cases symbol <;> simp [extendsPower, productOp, sumOp])
  have horder : Rule.Exact (leftChain orderOp _) (Chain orderOp _) _ :=
    exact_leftChain hsum (by
      intro symbol; cases symbol <;> simp [extendsPower, productOp, sumOp, orderOp])
  have hequality : Rule.Exact (leftChain equalityOp _) (Chain equalityOp _) _ :=
    exact_leftChain horder (by
      intro symbol; cases symbol <;> simp [extendsPower, productOp, sumOp, orderOp, equalityOp])
  have hand : Rule.Exact (leftChain andOp _) (Chain andOp _) _ :=
    exact_leftChain hequality (by
      intro symbol
      cases symbol <;> simp [extendsPower, productOp, sumOp, orderOp, equalityOp, andOp])
  have hor : Rule.Exact (leftChain orOp _) (Chain orOp _) _ :=
    exact_leftChain hand (by
      intro symbol
      cases symbol <;> simp [extendsPower, productOp, sumOp, orderOp, equalityOp, andOp, orOp])
  refine ⟨hor.starts, hor.sound, fun h hstop => hor.complete h (hstop.mono ?_)⟩
  intro symbol
  simp only [extendsTerm, strengths, List.mem_cons, List.not_mem_nil, or_false, exists_eq_or_imp,
    exists_eq_left, or_assoc, imp_self]

private theorem not_extendsTerm : ¬ extendsTerm .comma ∧ ¬ extendsTerm .closeParen := by
  constructor <;>
    simp [extendsTerm, extendsPower, strengths, productOp, sumOp, orderOp, equalityOp, andOp, orOp]

/-- At every level the rules read what the grammar derives there. -/
theorem exact_levels (setting : Setting) (left : Nat) :
    (levels setting left).whole.Exact (Readings.levels setting.parameters left).whole extendsTerm ∧
    (levels setting left).signed.Exact (Readings.levels setting.parameters left).signed
      extendsPower := by
  induction left with
  | zero => exact ⟨⟨False.elim, fun h => by simp [levels] at h, False.elim⟩,
      ⟨False.elim, fun h => by simp [levels] at h, False.elim⟩⟩
  | succ left ih =>
    have hs : Rule.Exact (Grammar.signed setting (levels setting left)) _ _ :=
      exact_signed ih.1 not_extendsTerm ih.2
    exact ⟨exact_whole hs, hs⟩

end Levels
end Grammar

/-- Tokens are read as a term if and only if the grammar derives it from their kinds. -/
theorem Term.ofTokens_eq_ok_iff {setting : Setting} {tokens : List Token} {term : Term} :
    Term.ofTokens setting tokens = .ok term ↔
      Derives setting.parameters setting.limit (tokens.map Token.kind) term := by
  have hw := (Grammar.exact_levels setting (setting.limit + 1)).1
  constructor
  · intro h
    unfold Term.ofTokens at h
    split at h
    · simp [Setting.fail] at h
    · split at h
      · simp at h
      · rename_i found hr
        obtain rfl := Except.ok.inj h
        obtain ⟨used, he, hu⟩ := hw.sound hr
        rw [List.append_nil] at he
        exact he ▸ hu
      · simp [Setting.fail] at h
  · intro h
    have hr := hw.complete h (.nil _)
    rw [List.append_nil] at hr
    unfold Term.ofTokens
    split
    · obtain ⟨_, _, he, -⟩ := hw.starts h
      simp at he
    · rw [hr]

end SceneFormula.Arithmetic
