import SceneFormula.Arithmetic.Program
import SceneFormula.Proofs.Parsing

namespace SceneFormula.Arithmetic
open Source (isBlank width)

inductive Lexes : List Char → List TokenKind → Prop
  | done : Lexes [] []
  | blank {c : Char} {rest : List Char} {kinds : List TokenKind} (hb : isBlank c = true)
    (h : Lexes rest kinds) : Lexes (c :: rest) kinds
  | lexeme {c : Char} {rest : List Char} {lexeme : Lexeme} {kinds : List TokenKind}
    (hb : isBlank c = false) (hl : Lexeme.read? (c :: rest) = some lexeme)
    (h : Lexes lexeme.rest kinds) : Lexes (c :: rest) (lexeme.kind :: kinds)

theorem Lexes.of_readFrom {offset : Nat} {text : List Char} {tokens : List Token}
    (h : Token.readFrom offset text = .ok tokens) : Lexes text (tokens.map Token.kind) := by
  fun_induction Token.readFrom offset text generalizing tokens with
  | case1 =>
    obtain rfl := Except.ok.inj h
    exact .done
  | case2 offset c rest hb ih => exact .blank hb (ih h)
  | case3 => cases h
  | case4 => cases h
  | case5 offset c rest hb lexeme hl others ho ih =>
    obtain rfl := Except.ok.inj h
    exact .lexeme (by simpa using hb) hl (ih ho)

theorem Lexes.readFrom {text : List Char} {kinds : List TokenKind} (h : Lexes text kinds)
    (offset : Nat) :
    ∃ tokens, Token.readFrom offset text = .ok tokens ∧ tokens.map Token.kind = kinds := by
  induction h generalizing offset with
  | done => exact ⟨[], by rw [Token.readFrom], rfl⟩
  | @blank c rest kinds hb _ ih =>
    obtain ⟨tokens, ht, hk⟩ := ih (offset + c.utf8Size)
    exact ⟨tokens, by rw [Token.readFrom, if_pos hb, ht], hk⟩
  | @lexeme c rest lexeme kinds hb hl _ ih =>
    obtain ⟨tokens, ht, hk⟩ := ih (offset + width lexeme.text)
    refine ⟨⟨lexeme.kind, offset⟩ :: tokens, ?_, by rw [List.map_cons, hk]⟩
    rw [Token.readFrom, if_neg (by simp [hb])]
    split
    · rename_i hn
      rw [hl] at hn
      cases hn
    · rename_i found hf
      obtain rfl := Option.some.inj (hl.symm.trans hf)
      rw [ht]

theorem Lexes.unique {text : List Char} {kinds others : List TokenKind} (h : Lexes text kinds)
    (ho : Lexes text others) : kinds = others := by
  obtain ⟨tokens, ht, rfl⟩ := h.readFrom 0
  obtain ⟨more, hm, rfl⟩ := ho.readFrom 0
  rw [ht] at hm
  rw [Except.ok.inj hm]

/-- A program is read if and only if the grammar derives its term from the tokens of its text. -/
theorem Program.parse_eq_ok_iff {source : String} {parameters : List String} {limit : Nat}
    {program : Program} :
    Program.parse source parameters limit = .ok program ↔
      ∃ kinds term, Lexes source.toList kinds ∧ Derives parameters limit kinds term ∧
        program = ⟨source, parameters, term⟩ := by
  constructor
  · intro h
    simp only [Program.parse] at h
    split at h
    · cases h
    · rename_i tokens ht
      split at h
      · cases h
      · rename_i term hterm
        obtain rfl := Except.ok.inj h
        exact ⟨_, term, .of_readFrom ht, Term.ofTokens_eq_ok_iff.mp hterm, rfl⟩
  · rintro ⟨kinds, term, hl, hd, rfl⟩
    obtain ⟨tokens, ht, rfl⟩ := hl.readFrom 0
    simp only [Program.parse, Token.read, ht]
    rw [Term.ofTokens_eq_ok_iff.mpr hd]

theorem range_of_isAlpha {c : Char} (h : c.isAlpha = true) :
    65 ≤ c.toNat ∧ c.toNat ≤ 90 ∨ 97 ≤ c.toNat ∧ c.toNat ≤ 122 := by
  change (decide (c.val ≥ 65 ∧ c.val ≤ 90) ||
    decide (c.val ≥ 97) && decide (c.val ≤ 122)) = true at h
  simp only [Bool.or_eq_true, Bool.and_eq_true, decide_eq_true_eq, ge_iff_le,
    UInt32.le_iff_toNat_le] at h
  exact h

theorem not_isBlank_of_isNamePart {c : Char} (h : isNamePart c = true) : isBlank c = false := by
  have hc : c.toNat < 0x85 ∧ 0x20 < c.toNat := by
    simp only [isNamePart, Char.isAlphanum, Bool.or_eq_true, beq_iff_eq] at h
    rcases h with (h | h) | rfl
    · have := range_of_isAlpha h
      omega
    · have hd : 48 ≤ c.toNat ∧ c.toNat ≤ 57 := Char.isDigit_iff_toNat.mp h
      omega
    · decide
  rw [← Bool.not_eq_true]
  intro hb
  simp only [isBlank, Bool.or_eq_true, Bool.and_eq_true, decide_eq_true_eq, beq_iff_eq] at hb
  omega

theorem isNamePart_of_isNameStart {c : Char} (h : isNameStart c = true) : isNamePart c = true := by
  simp only [isNameStart, isNamePart, Char.isAlphanum, Bool.or_eq_true] at h ⊢
  exact h.imp_left Or.inl

theorem not_isDigit_of_isNameStart {c : Char} (h : isNameStart c = true) : c.isDigit = false := by
  rw [← Bool.not_eq_true]
  intro hd
  have hrange : 48 ≤ c.toNat ∧ c.toNat ≤ 57 := Char.isDigit_iff_toNat.mp hd
  simp only [isNameStart, Bool.or_eq_true, beq_iff_eq] at h
  rcases h with h | rfl
  · have := range_of_isAlpha h
    omega
  · exact absurd hd (by decide)

/-- A name is the longest run of characters of a name. -/
theorem Lexes.name_iff {c : Char} {text : List Char} {kinds : List TokenKind}
    (hc : isNameStart c = true) :
    Lexes (c :: text) kinds ↔
      ∃ more, kinds = .name (String.ofList ((c :: text).takeWhile isNamePart)) :: more ∧
        Lexes ((c :: text).dropWhile isNamePart) more := by
  have hb := not_isBlank_of_isNamePart (isNamePart_of_isNameStart hc)
  have hread : Lexeme.read? (c :: text) = some (Lexeme.name (c :: text)) := by
    rw [Lexeme.read?, if_neg (by simp [not_isDigit_of_isNameStart hc]), if_pos hc]
  constructor
  · intro h
    cases h with
    | blank hblank _ =>
      rw [hb] at hblank
      cases hblank
    | lexeme _ hl hmore =>
      obtain rfl := Option.some.inj (hread.symm.trans hl)
      exact ⟨_, rfl, hmore⟩
  · rintro ⟨more, rfl, hmore⟩
    exact .lexeme hb hread hmore

/-- No lexeme starts with a dot. -/
theorem Lexes.head_ne_dot {text : List Char} {kinds : List TokenKind} (h : Lexes text kinds) :
    text.head? ≠ some '.' := by
  cases h with
  | done => simp
  | @blank c rest kinds hb _ =>
    rintro hc
    obtain rfl : c = '.' := by simpa using hc
    exact absurd hb (by decide)
  | @lexeme c rest lexeme kinds _ hl _ =>
    rintro hc
    obtain rfl : c = '.' := by simpa using hc
    cases hl

private theorem text_of_name {text : List Char} {lexeme : Lexeme}
    (h : Lexeme.read? text = some lexeme) {name : String} (hk : lexeme.kind = .name name) :
    lexeme.text = name.toList := by
  unfold Lexeme.read? at h
  split at h
  · cases h
  · split at h
    · obtain rfl := Option.some.inj h
      unfold Lexeme.number at hk
      split at hk <;> cases hk
    · split at h
      · obtain rfl := Option.some.inj h
        obtain rfl := TokenKind.name.inj hk
        exact String.toList_ofList.symm
      · obtain ⟨⟨symbol, behind⟩, _, rfl⟩ := Option.map_eq_some_iff.mp h
        cases hk

/-- A name that is read from a text is written in it. -/
theorem Lexes.name_infix {text : List Char} {kinds : List TokenKind}
    (h : Lexes text kinds) {name : String} (hm : .name name ∈ kinds) : name.toList <:+: text := by
  induction h with
  | done => cases hm
  | blank _ _ ih => exact List.infix_cons (ih hm)
  | @lexeme c rest lexeme kinds _ hl _ ih =>
    rw [← Lexeme.read?_append hl]
    rcases List.mem_cons.mp hm with hk | hm
    · rw [text_of_name hl hk.symm]
      exact (List.prefix_append _ _).isInfix
    · exact (ih hm).trans (List.suffix_append _ _).isInfix

def joins (a b : Char) : Bool :=
  (isNamePart a || a == '.') && (isNamePart b || b == '.') ||
    b == '=' && (a == '=' || a == '!' || a == '<' || a == '>') ||
    a == '&' && b == '&' || a == '|' && b == '|'

namespace Symbol

def takesEqual (symbol : Symbol) : Bool :=
  symbol == bang || symbol == less || symbol == greater

theorem read?_spelling {symbol : Symbol} {rest : List Char}
    (h : symbol.takesEqual = true → rest.head? ≠ some '=') :
    read? (symbol.spelling ++ rest) = some (symbol, rest) := by
  cases symbol
  case bang | less | greater =>
    cases rest with
    | nil => rfl
    | cons b rest =>
      have hb : b ≠ '=' := by simpa [takesEqual] using h
      simp [spelling, read?, hb]
  all_goals rfl

theorem head?_of_read? {symbol : Symbol} {text rest : List Char}
    (h : read? text = some (symbol, rest)) (ht : symbol.takesEqual = true) :
    rest.head? ≠ some '=' := by
  intro hr
  obtain ⟨rest, rfl⟩ : ∃ more, rest = '=' :: more := by
    cases rest with
    | nil => simp at hr
    | cons b rest => exact ⟨rest, by simpa using hr⟩
  rw [read?_eq h] at h
  cases symbol <;> simp [takesEqual] at ht <;> cases h

theorem isSome_read? {symbol : Symbol} {c : Char} {text : List Char} (h : symbol.spelling = [c]) :
    (read? (c :: text)).isSome := by
  by_cases hs : symbol.takesEqual = true ∧ text.head? = some '='
  · obtain ⟨ht, hhead⟩ := hs
    cases text with
    | nil => cases hhead
    | cons b text =>
      obtain rfl : b = '=' := by simpa using hhead
      cases symbol <;> simp [takesEqual] at ht <;> cases h <;> rfl
  · have hr : read? (symbol.spelling ++ text) = some (symbol, text) :=
      read?_spelling fun ht he => hs ⟨ht, he⟩
    rw [h] at hr
    exact Option.isSome_iff_exists.mpr ⟨_, hr⟩

/-- Symbols have one or two characters, and two of them join. -/
theorem spelling_cases (symbol : Symbol) :
    (∃ c, symbol.spelling = [c]) ∨
      ∃ c d, symbol.spelling = [c, d] ∧ joins c d = true ∧ symbol.takesEqual = false := by
  cases symbol
  case equal | notEqual | lessOrEqual | greaterOrEqual | and | or =>
    exact .inr ⟨_, _, rfl, by decide, rfl⟩
  all_goals exact .inl ⟨_, rfl⟩

end Symbol

section Seams

/-- No lexeme reaches from one text into the next one. -/
def Apart (text rest : List Char) : Prop :=
  ∀ a ∈ text.getLast?, ∀ b ∈ rest.head?, joins a b = false

theorem Apart.of_suffix {text rest more : List Char} (h : Apart text rest) (hs : more <:+ text) :
    Apart more rest := by
  obtain ⟨before, rfl⟩ := hs
  intro a ha b hb
  refine h a ?_ b hb
  cases more with
  | nil => simp at ha
  | cons c more => simpa [List.getLast?_append] using ha

theorem while_append (p : Char → Bool) {text rest : List Char}
    (h : ∀ b ∈ rest.head?, (text.all p = true → p b = false)) :
    (text ++ rest).takeWhile p = text.takeWhile p ∧
      (text ++ rest).dropWhile p = text.dropWhile p ++ rest := by
  induction text with
  | nil =>
    cases rest with
    | nil => exact ⟨rfl, rfl⟩
    | cons b rest =>
      have hb : p b = false := h b rfl rfl
      simp [hb]
  | cons c text ih =>
    by_cases hc : p c = true
    · obtain ⟨ht, hd⟩ := ih fun b hb ha => h b hb (by simp [hc, ha])
      rw [List.cons_append, List.takeWhile_cons_of_pos hc, List.dropWhile_cons_of_pos hc, ht, hd,
        List.takeWhile_cons_of_pos hc, List.dropWhile_cons_of_pos hc]
      exact ⟨rfl, rfl⟩
    · rw [List.cons_append, List.takeWhile_cons_of_neg hc, List.dropWhile_cons_of_neg hc,
        List.takeWhile_cons_of_neg hc, List.dropWhile_cons_of_neg hc]
      exact ⟨rfl, rfl⟩

private theorem not_part_of_joins {a b : Char} (ha : isNamePart a = true ∨ a = '.')
    (h : joins a b = false) : isNamePart b = false ∧ b ≠ '.' := by
  have hp : (isNamePart a || a == '.') = true := by simpa using ha
  simp only [joins, hp, Bool.true_and, Bool.or_eq_false_iff] at h
  simpa using h.1.1.1

theorem isNamePart_of_isDigit {c : Char} (h : c.isDigit = true) : isNamePart c = true := by
  simp [isNamePart, Char.isAlphanum, h]

private theorem getLast?_of_all {p : Char → Bool} {c : Char} {text : List Char}
    (h : (c :: text).all p = true) : ∃ a ∈ (c :: text).getLast?, p a = true := by
  obtain ⟨a, ha⟩ : ∃ a, (c :: text).getLast? = some a := by simp [List.getLast?_cons]
  exact ⟨a, ha, List.all_eq_true.mp h a (List.mem_of_getLast? ha)⟩

/-- A suffix that is not empty ends as the text does. -/
private theorem mem_getLast?_of_suffix {c a : Char} {text more : List Char}
    (hs : c :: more <:+ text) (ha : a ∈ (c :: more).getLast?) : a ∈ text.getLast? := by
  obtain ⟨before, rfl⟩ := hs
  rw [List.getLast?_append, Option.mem_def, Option.mem_def.mp ha, Option.some_or]

private theorem number_append_apart {c : Char} {text rest : List Char}
    (h : Apart (c :: text) rest) :
    Lexeme.number (c :: text ++ rest) =
      { Lexeme.number (c :: text) with rest := (Lexeme.number (c :: text)).rest ++ rest } := by
  have hlast {a b : Char} (ha : a ∈ (c :: text).getLast?) (hb : b ∈ rest.head?)
      (hp : a.isDigit = true ∨ a = '.') : b.isDigit = false ∧ b ≠ '.' := by
    obtain ⟨hn, hd⟩ := not_part_of_joins (hp.imp_left isNamePart_of_isDigit) (h a ha b hb)
    exact ⟨by rw [← Bool.not_eq_true]; exact fun hd => by simp [isNamePart_of_isDigit hd] at hn, hd⟩
  have hdigits : ∀ b ∈ rest.head?, (c :: text).all Char.isDigit = true → b.isDigit = false := by
    intro b hb hall
    obtain ⟨a, ha, hp⟩ := getLast?_of_all hall
    exact (hlast ha hb (.inl hp)).1
  obtain ⟨ht, hd⟩ := while_append Char.isDigit hdigits
  -- The number may end with the whole text, behind its point, or before another character.
  unfold Lexeme.number
  rw [ht, hd]
  cases hw : (c :: text).dropWhile Char.isDigit with
  | nil =>
    have hall : (c :: text).all Char.isDigit = true := by
      rw [← List.takeWhile_append_dropWhile (p := Char.isDigit) (l := c :: text), hw,
        List.append_nil]
      exact List.all_takeWhile
    cases rest with
    | nil => rfl
    | cons b rest =>
      obtain ⟨a, ha, hp⟩ := getLast?_of_all hall
      have hb : b ≠ '.' := (hlast ha rfl (.inl hp)).2
      rw [List.nil_append]
      split
      · rename_i heq
        exact absurd (List.cons.inj heq).1 hb
      · rfl
  | cons d more =>
    by_cases hdot : d = '.'
    · subst hdot
      have hsuffix : '.' :: more <:+ c :: text := hw ▸ List.dropWhile_suffix _
      have hfraction : ∀ b ∈ rest.head?, more.all Char.isDigit = true → b.isDigit = false := by
        intro b hb hall
        cases more with
        | nil => exact (hlast (mem_getLast?_of_suffix hsuffix rfl) hb (.inr rfl)).1
        | cons e more =>
          obtain ⟨a, hm, hp⟩ := getLast?_of_all hall
          have hbehind : e :: more <:+ c :: text := (List.suffix_cons _ _).trans hsuffix
          exact (hlast (mem_getLast?_of_suffix hbehind hm) hb (.inl hp)).1
      obtain ⟨hf, hr⟩ := while_append Char.isDigit hfraction
      simp only [List.cons_append, hf, hr]
    · simp only [List.cons_append]
      split
      · rename_i heq
        exact absurd (List.cons.inj heq).1 hdot
      · split
        · rename_i heq
          exact absurd (List.cons.inj heq).1 hdot
        · rfl

private theorem name_append_apart {c : Char} {text rest : List Char}
    (h : Apart (c :: text) rest) :
    Lexeme.name (c :: text ++ rest) =
      { Lexeme.name (c :: text) with rest := (Lexeme.name (c :: text)).rest ++ rest } := by
  have hparts : ∀ b ∈ rest.head?, (c :: text).all isNamePart = true → isNamePart b = false := by
    intro b hb hall
    obtain ⟨a, ha, hp⟩ := getLast?_of_all hall
    exact (not_part_of_joins (.inl hp) (h a ha b hb)).1
  obtain ⟨ht, hd⟩ := while_append isNamePart hparts
  unfold Lexeme.name
  rw [ht, hd]

private theorem symbol_append_apart {c : Char} {text rest : List Char}
    (h : Apart (c :: text) rest) :
    Symbol.read? (c :: text ++ rest) =
      (Symbol.read? (c :: text)).map fun (symbol, behind) => (symbol, behind ++ rest) := by
  cases hs : Symbol.read? (c :: text) with
  | some found =>
    obtain ⟨symbol, behind⟩ := found
    have he := Symbol.read?_eq hs
    rw [he, List.append_assoc, Option.map_some]
    refine Symbol.read?_spelling fun ht hhead => ?_
    cases behind with
    | cons b behind => exact Symbol.head?_of_read? hs ht hhead
    | nil =>
      have hj : Apart symbol.spelling rest := by simpa [he] using h
      cases symbol <;> simp [Symbol.takesEqual] at ht <;>
        exact absurd (hj _ rfl '=' hhead) (by decide)
  | none =>
    rw [Option.map_none]
    cases hr : Symbol.read? (c :: text ++ rest) with
    | none => rfl
    | some found =>
      obtain ⟨symbol, behind⟩ := found
      have he := Symbol.read?_eq hr
      have hsome : (Symbol.read? (c :: text)).isSome := by
        rcases Symbol.spelling_cases symbol with ⟨a, ha⟩ | ⟨a, b, hab, hj, ht⟩
        · rw [ha] at he
          obtain rfl : c = a := (List.cons.inj he).1
          exact Symbol.isSome_read? ha
        · rw [hab] at he
          obtain rfl : c = a := (List.cons.inj he).1
          cases text with
          | nil =>
            obtain rfl : rest = b :: behind := (List.cons.inj he).2
            exact absurd (h c rfl b rfl) (by simp [hj])
          | cons d text =>
            obtain rfl : d = b := (List.cons.inj (List.cons.inj he).2).1
            have hr : Symbol.read? (symbol.spelling ++ text) = some (symbol, text) :=
              Symbol.read?_spelling (by simp [ht])
            rw [hab] at hr
            exact Option.isSome_iff_exists.mpr ⟨_, hr⟩
      simp [hs] at hsome

/-- The first lexeme of a text is the first one of a longer text, if the two do not join. -/
theorem Lexeme.read?_of_apart {text rest : List Char} (ht : text ≠ []) (h : Apart text rest) :
    Lexeme.read? (text ++ rest) =
      (Lexeme.read? text).map fun lexeme => { lexeme with rest := lexeme.rest ++ rest } := by
  obtain ⟨c, text, rfl⟩ := List.exists_cons_of_ne_nil ht
  rw [List.cons_append, Lexeme.read?, Lexeme.read?]
  split
  · rw [← List.cons_append, number_append_apart h, Option.map_some]
  · split
    · rw [← List.cons_append, name_append_apart h, Option.map_some]
    · rw [← List.cons_append, symbol_append_apart h, Option.map_map, Option.map_map]
      rfl

/-- Texts that do not join can be read one after the other. -/
theorem Lexes.append {text rest : List Char} {kinds more : List TokenKind} (h : Lexes text kinds)
    (hr : Lexes rest more) (ha : Apart text rest) : Lexes (text ++ rest) (kinds ++ more) := by
  induction h with
  | done => exact hr
  | blank hb _ ih => exact .blank hb (ih (ha.of_suffix (List.suffix_cons _ _)))
  | @lexeme c behind lexeme kinds hb hl _ ih =>
    have hs : lexeme.rest <:+ c :: behind := ⟨lexeme.text, Lexeme.read?_append hl⟩
    have hread := Lexeme.read?_of_apart (List.cons_ne_nil c behind) ha
    rw [hl, Option.map_some] at hread
    exact @Lexes.lexeme c (behind ++ rest) ⟨lexeme.kind, lexeme.text, lexeme.rest ++ rest⟩ _ hb
      hread (ih (ha.of_suffix hs))

/-- A text in two parts that do not join is read part by part. -/
theorem Lexes.of_append {text rest : List Char} {kinds : List TokenKind}
    (h : Lexes (text ++ rest) kinds) (ha : Apart text rest) :
    ∃ first second, kinds = first ++ second ∧ Lexes text first ∧ Lexes rest second := by
  generalize he : text ++ rest = whole at h
  induction h generalizing text with
  | done =>
    obtain ⟨rfl, rfl⟩ := List.append_eq_nil_iff.mp he
    exact ⟨[], [], rfl, .done, .done⟩
  | @blank c behind kinds hb hk ih =>
    cases text with
    | nil =>
      rw [List.nil_append] at he
      exact ⟨[], kinds, rfl, .done, he ▸ .blank hb hk⟩
    | cons d text =>
      obtain ⟨rfl, rfl⟩ := List.cons.inj he
      obtain ⟨first, second, rfl, hf, hs⟩ := ih (ha.of_suffix (List.suffix_cons _ _)) rfl
      exact ⟨first, second, rfl, .blank hb hf, hs⟩
  | @lexeme c behind lexeme kinds hb hl hk ih =>
    cases text with
    | nil =>
      rw [List.nil_append] at he
      exact ⟨[], lexeme.kind :: kinds, rfl, .done, he ▸ .lexeme hb hl hk⟩
    | cons d text =>
      obtain ⟨rfl, rfl⟩ := List.cons.inj he
      change Lexeme.read? (d :: text ++ rest) = some lexeme at hl
      rw [Lexeme.read?_of_apart (List.cons_ne_nil d text) ha] at hl
      obtain ⟨own, ho, rfl⟩ := Option.map_eq_some_iff.mp hl
      have hs : own.rest <:+ d :: text := ⟨own.text, Lexeme.read?_append ho⟩
      obtain ⟨first, second, rfl, hf, hsecond⟩ := ih (ha.of_suffix hs) rfl
      exact ⟨own.kind :: first, second, rfl, .lexeme hb ho hf, hsecond⟩

end Seams
end SceneFormula.Arithmetic
