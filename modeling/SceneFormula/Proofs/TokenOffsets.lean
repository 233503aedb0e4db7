import SceneFormula.Arithmetic.Token
import SceneFormula.Proofs.ByteOffsets
import SceneFormula.Proofs.Lexing

namespace SceneFormula.Arithmetic
open Source (isBlank slice? width)

structure LexemeEnd where
  last : Nat
  next : Nat
  behind : List Char

def numberEnd (pointed : Bool) (last position : Nat) : List Char → LexemeEnd
  | [] => ⟨last, position, []⟩
  | c :: rest =>
    if c.isDigit then numberEnd pointed position (position + c.utf8Size) rest
    else if c = '.' ∧ pointed = false then numberEnd true position (position + c.utf8Size) rest
    else ⟨last, position, c :: rest⟩

def nameEnd (last position : Nat) : List Char → LexemeEnd
  | [] => ⟨last, position, []⟩
  | c :: rest =>
    if isNamePart c then nameEnd position (position + c.utf8Size) rest
    else ⟨last, position, c :: rest⟩

def decimal? (text : List Char) : Option Float :=
  let whole := text.takeWhile Char.isDigit
  match text.dropWhile Char.isDigit with
  | [] => if whole = [] then none else some (decimalValue whole [])
  | '.' :: fraction =>
    if fraction.all Char.isDigit ∧ whole ++ fraction ≠ [] then some (decimalValue whole fraction)
    else none
  | _ => none

/-- The token of the lexeme at an offset, and the offset and the text behind that. Digits that spell
no number are a failure. -/
def lexemeAt? (text : List Char) (position : Nat) :
    List Char → Option (Option (TokenKind × Nat × List Char))
  | [] => some none
  | c :: rest =>
    if c.isDigit then do
      let stop := numberEnd false position position (c :: rest)
      let raw ← slice? text position (stop.last + 1)
      let value ← decimal? raw
      some (some (.number value, stop.next, stop.behind))
    else if isNameStart c then do
      let stop := nameEnd position position (c :: rest)
      let raw ← slice? text position (stop.last + 1)
      some (some (.name (String.ofList raw), stop.next, stop.behind))
    else
      some ((Symbol.read? (c :: rest)).map fun (symbol, behind) =>
        (.symbol symbol, position + width symbol.spelling, behind))

def Token.readAt (text : List Char) (position : Nat) (ahead : List Char) :
    Guarded SyntaxFault (List Token) :=
  match ahead with
  | [] => pure []
  | c :: rest =>
    if isBlank c then readAt text (position + c.utf8Size) rest
    else do
      match ← lexemeAt? text position (c :: rest) with
      | none => throw (stray c position)
      | some (kind, next, behind) =>
        if _h : behind.length < (c :: rest).length then do
          let others ← readAt text next behind
          pure (⟨kind, position⟩ :: others)
        else liftM (none : Option (List Token))
termination_by ahead.length
decreasing_by
  · exact Nat.lt_succ_self _
  · exact _h

theorem toNat_lt_of_isNamePart {c : Char} (h : isNamePart c = true) : c.toNat < 128 := by
  simp only [isNamePart, Char.isAlphanum, Bool.or_eq_true, beq_iff_eq] at h
  rcases h with (h | h) | rfl
  · have := range_of_isAlpha h
    omega
  · have hd : 48 ≤ c.toNat ∧ c.toNat ≤ 57 := Char.isDigit_iff_toNat.mp h
    omega
  · decide

theorem utf8Size_of_isNamePart {c : Char} (h : isNamePart c = true) : c.utf8Size = 1 :=
  Source.utf8Size_of_lt (toNat_lt_of_isNamePart h)

/-- A text of single bytes is as wide as it is long. -/
theorem width_of_isNamePart {text : List Char} (h : ∀ c ∈ text, isNamePart c = true) :
    width text = text.length := by
  induction text with
  | nil => rfl
  | cons c text ih =>
    rw [Source.width_cons, List.length_cons, utf8Size_of_isNamePart (h c List.mem_cons_self),
      ih fun c hc => h c (List.mem_cons_of_mem _ hc)]
    omega

private theorem nameEnd_parts {parts : List Char} (hp : ∀ c ∈ parts, isNamePart c = true)
    {tail : List Char} (ht : ∀ c ∈ tail.head?, isNamePart c = false) (position : Nat) :
    nameEnd position (position + 1) (parts ++ tail) =
      ⟨position + parts.length, position + parts.length + 1, tail⟩ := by
  induction parts generalizing position with
  | nil =>
    cases tail with
    | nil => rfl
    | cons c tail =>
      rw [List.nil_append, nameEnd, if_neg (by simp [ht c rfl])]
      rfl
  | cons c parts ih =>
    have hc := hp c List.mem_cons_self
    rw [List.cons_append, nameEnd, if_pos hc, utf8Size_of_isNamePart hc,
      ih (fun c hm => hp c (List.mem_cons_of_mem _ hm)), List.length_cons]
    congr 1 <;> omega

private theorem numberEnd_digits {digits : List Char} (hd : ∀ c ∈ digits, c.isDigit = true)
    (pointed : Bool) (position : Nat) (tail : List Char) :
    numberEnd pointed position (position + 1) (digits ++ tail) =
      numberEnd pointed (position + digits.length) (position + digits.length + 1) tail := by
  induction digits generalizing position with
  | nil => rfl
  | cons c digits ih =>
    have hc := hd c List.mem_cons_self
    rw [List.cons_append, numberEnd, if_pos hc, utf8Size_of_isNamePart (isNamePart_of_isDigit hc),
      ih (fun c hm => hd c (List.mem_cons_of_mem _ hm)), List.length_cons]
    congr 1 <;> omega

private theorem numberEnd_stop {pointed : Bool} {tail : List Char}
    (ht : ∀ c ∈ tail.head?, c.isDigit = false ∧ (c = '.' → pointed = true)) (last position : Nat) :
    numberEnd pointed last position tail = ⟨last, position, tail⟩ := by
  cases tail with
  | nil => rfl
  | cons c tail =>
    obtain ⟨hd, hdot⟩ := ht c rfl
    rw [numberEnd, if_neg (by simp [hd]), if_neg (fun h => by simp [hdot h.1] at h)]

/-- A text is cut behind its longest start of a kind. -/
theorem exists_while (p : Char → Bool) (text : List Char) :
    ∃ front tail, text = front ++ tail ∧ (∀ c ∈ front, p c = true) ∧
      ∀ c ∈ tail.head?, p c = false := by
  refine ⟨text.takeWhile p, text.dropWhile p, List.takeWhile_append_dropWhile.symm,
    fun c hc => List.mem_takeWhile_imp hc, fun c hc => ?_⟩
  have hnot := List.head?_dropWhile_not p text
  rw [hc] at hnot
  simpa using hnot

/-- Where a text is cut behind its longest start of a kind, told by the two parts. -/
theorem while_eq {p : Char → Bool} {front tail : List Char}
    (hf : ∀ c ∈ front, p c = true) (ht : ∀ c ∈ tail.head?, p c = false) :
    (front ++ tail).takeWhile p = front ∧ (front ++ tail).dropWhile p = tail := by
  rw [List.takeWhile_append_of_pos hf, List.dropWhile_append_of_pos hf]
  cases tail with
  | nil => simp
  | cons c tail =>
    have hc : ¬ p c = true := by simp [ht c rfl]
    rw [List.takeWhile_cons_of_neg hc, List.dropWhile_cons_of_neg hc, List.append_nil]
    exact ⟨rfl, rfl⟩

/-- Digits and what stands behind a point spell a number. -/
private theorem decimal?_of_digits {whole fraction : List Char}
    (hw : ∀ c ∈ whole, c.isDigit = true) (hf : ∀ c ∈ fraction, c.isDigit = true)
    (hne : whole ≠ []) :
    decimal? whole = some (decimalValue whole []) ∧
      decimal? (whole ++ '.' :: fraction) = some (decimalValue whole fraction) := by
  have hpoint : ∀ c ∈ ('.' :: fraction).head?, c.isDigit = false := by
    rintro c (_ | _)
    rfl
  obtain ⟨ht, hd⟩ := while_eq hw hpoint
  obtain ⟨htake, hdrop⟩ := @while_eq Char.isDigit whole [] hw (by simp)
  rw [List.append_nil] at htake hdrop
  constructor
  · rw [decimal?, htake, hdrop]
    exact if_neg hne
  · rw [decimal?, ht, hd]
    exact if_pos ⟨List.all_eq_true.mpr hf, by simp [hne]⟩

/-- A number with a point ends before the first character that is no digit. -/
theorem number_pointed {whole fraction more : List Char}
    (hw : ∀ c ∈ whole, c.isDigit = true) (hf : ∀ c ∈ fraction, c.isDigit = true)
    (hm : ∀ c ∈ more.head?, c.isDigit = false) :
    Lexeme.number (whole ++ '.' :: (fraction ++ more)) =
      ⟨.number (decimalValue whole fraction), whole ++ '.' :: fraction, more⟩ := by
  have hpoint : ∀ c ∈ ('.' :: (fraction ++ more)).head?, c.isDigit = false := by
    rintro c (_ | _)
    rfl
  obtain ⟨ht, hd⟩ := while_eq hw hpoint
  obtain ⟨htake, hdrop⟩ := while_eq hf hm
  simp only [Lexeme.number, ht, hd, htake, hdrop]

/-- So does one without a point, if no point follows. -/
theorem number_plain {whole tail : List Char} (hw : ∀ c ∈ whole, c.isDigit = true)
    (ht : ∀ c ∈ tail.head?, c.isDigit = false) (hdot : ∀ behind, tail ≠ '.' :: behind) :
    Lexeme.number (whole ++ tail) = ⟨.number (decimalValue whole []), whole, tail⟩ := by
  obtain ⟨htake, hdrop⟩ := while_eq hw ht
  rw [Lexeme.number, htake, hdrop]
  split
  · rename_i behind
    exact absurd rfl (hdot behind)
  · rfl

/-- The lexeme of a number ends where its text does, and its text spells its value. -/
private theorem lexemeAt?_number {text front rest : List Char} {c : Char} (hc : c.isDigit = true)
    (ht : text = front ++ c :: rest) :
    lexemeAt? text (width front) (c :: rest) =
      some (some ((Lexeme.number (c :: rest)).kind,
        width front + width (Lexeme.number (c :: rest)).text,
        (Lexeme.number (c :: rest)).rest)) := by
  obtain ⟨digits, tail, rfl, hdigits, htail⟩ := exists_while Char.isDigit rest
  have hwhole : ∀ d ∈ c :: digits, d.isDigit = true := List.forall_mem_cons.mpr ⟨hc, hdigits⟩
  have hne : c :: digits ≠ [] := List.cons_ne_nil _ _
  have hstart : numberEnd false (width front) (width front) (c :: (digits ++ tail)) =
      numberEnd false (width front + digits.length) (width front + digits.length + 1) tail := by
    rw [numberEnd, if_pos hc, utf8Size_of_isNamePart (isNamePart_of_isDigit hc),
      numberEnd_digits hdigits]
  have hwidth : width (c :: digits) = digits.length + 1 := by
    rw [width_of_isNamePart fun c hc => isNamePart_of_isDigit (hwhole c hc), List.length_cons]
  rw [lexemeAt?, if_pos hc, hstart, ← List.cons_append]
  by_cases hdot : ∃ behind, tail = '.' :: behind
  · obtain ⟨behind, rfl⟩ := hdot
    obtain ⟨fraction, more, rfl, hfraction, hmore⟩ := exists_while Char.isDigit behind
    have hsize : '.'.utf8Size = 1 := rfl
    have hstop : numberEnd false (width front + digits.length)
        (width front + digits.length + 1) ('.' :: (fraction ++ more)) =
        ⟨width front + digits.length + 1 + fraction.length,
          width front + digits.length + 1 + fraction.length + 1, more⟩ := by
      rw [numberEnd, if_neg (by decide), if_pos ⟨rfl, rfl⟩, hsize, numberEnd_digits hfraction,
        numberEnd_stop fun c hc => ⟨hmore c hc, fun _ => rfl⟩]
    have hall : width front + width (c :: digits ++ '.' :: fraction) =
        width front + digits.length + 1 + fraction.length + 1 := by
      rw [Source.width_append, hwidth, Source.width_cons, hsize,
        width_of_isNamePart fun c hc => isNamePart_of_isDigit (hfraction c hc)]
      omega
    have hslice : slice? text (width front)
        (width front + digits.length + 1 + fraction.length + 1) =
        some (c :: digits ++ '.' :: fraction) :=
      @Source.slice?_eq text front _ more _ _ (by rw [ht]; simp) rfl
        (by rw [Source.width_append, hall])
    rw [hstop, number_pointed hwhole hfraction hmore]
    simp only [hslice, Option.bind_eq_bind, Option.bind_some,
      (decimal?_of_digits hwhole hfraction hne).2, hall]
  · have hnone : ∀ behind, tail ≠ '.' :: behind := fun behind h => hdot ⟨behind, h⟩
    have hstop : numberEnd false (width front + digits.length)
        (width front + digits.length + 1) tail =
        ⟨width front + digits.length, width front + digits.length + 1, tail⟩ := by
      refine numberEnd_stop (fun d hd => ⟨htail d hd, ?_⟩) _ _
      rintro rfl
      obtain ⟨behind, rfl⟩ := List.head?_eq_some_iff.mp hd
      exact absurd rfl (hnone behind)
    have hslice : slice? text (width front) (width front + digits.length + 1) =
        some (c :: digits) :=
      @Source.slice?_eq text front _ tail _ _ (by rw [ht]; simp) rfl
        (by rw [Source.width_append, hwidth]; omega)
    rw [hstop, number_plain hwhole htail hnone]
    simp only [hslice, Option.bind_eq_bind, Option.bind_some,
      (decimal?_of_digits hwhole hwhole hne).1, hwidth]
    rfl

private theorem lexemeAt?_name {text front rest : List Char} {c : Char} (hc : isNamePart c = true)
    (hs : isNameStart c = true) (ht : text = front ++ c :: rest) :
    lexemeAt? text (width front) (c :: rest) =
      some (some ((Lexeme.name (c :: rest)).kind,
        width front + width (Lexeme.name (c :: rest)).text, (Lexeme.name (c :: rest)).rest)) := by
  obtain ⟨parts, tail, rfl, hparts, htail⟩ := exists_while isNamePart rest
  have hwhole : ∀ d ∈ c :: parts, isNamePart d = true := List.forall_mem_cons.mpr ⟨hc, hparts⟩
  obtain ⟨htake, hdrop⟩ := while_eq hwhole htail
  rw [List.cons_append] at htake hdrop
  have hstop : nameEnd (width front) (width front) (c :: (parts ++ tail)) =
      ⟨width front + parts.length, width front + parts.length + 1, tail⟩ := by
    rw [nameEnd, if_pos hc, utf8Size_of_isNamePart hc, nameEnd_parts hparts htail]
  have hwidth : width (c :: parts) = parts.length + 1 := by
    rw [width_of_isNamePart hwhole, List.length_cons]
  have hslice : slice? text (width front) (width front + parts.length + 1) =
      some (c :: parts) := by
    refine @Source.slice?_eq text front _ tail _ _ (by rw [ht]; simp) rfl ?_
    rw [Source.width_append, hwidth]
    omega
  rw [lexemeAt?, if_neg (by simp [not_isDigit_of_isNameStart hs]), if_pos hs, hstop]
  simp only [hslice, Option.bind_eq_bind, Option.bind_some, Lexeme.name, htake, hdrop, hwidth]
  rfl

/-- The lexeme at an offset is the one that starts the text there. -/
theorem lexemeAt?_eq {text front ahead : List Char} (ht : text = front ++ ahead) :
    lexemeAt? text (width front) ahead =
      some ((Lexeme.read? ahead).map fun lexeme =>
        (lexeme.kind, width front + width lexeme.text, lexeme.rest)) := by
  cases ahead with
  | nil => rfl
  | cons c rest =>
    rw [Lexeme.read?]
    by_cases hd : c.isDigit = true
    · rw [if_pos hd, lexemeAt?_number hd ht]
      rfl
    · by_cases hs : isNameStart c = true
      · rw [if_neg hd, if_pos hs, lexemeAt?_name (isNamePart_of_isNameStart hs) hs ht]
        rfl
      · rw [if_neg hd, if_neg hs, lexemeAt?, if_neg hd, if_neg hs, Option.map_map]
        rfl

/-- Reading by offsets gives the tokens of the text, or what is wrong with it. -/
theorem Token.readAt_eq {text front ahead : List Char} (ht : text = front ++ ahead) :
    readAt text (width front) ahead = .of (readFrom (width front) ahead) := by
  cases ahead with
  | nil =>
    rw [readAt, readFrom]
    rfl
  | cons c rest =>
    rw [readAt, readFrom]
    by_cases hb : isBlank c = true
    · have hnext : width front + c.utf8Size = width (front ++ [c]) := by simp
      rw [if_pos hb, if_pos hb, hnext]
      exact readAt_eq (by rw [ht]; simp)
    · rw [if_neg hb, if_neg hb, lexemeAt?_eq ht]
      cases hl : Lexeme.read? (c :: rest) with
      | none => rfl
      | some lexeme =>
        have hlength := Lexeme.read?_length hl
        have hothers := @readAt_eq text (front ++ lexeme.text) lexeme.rest
          (by rw [ht, List.append_assoc, Lexeme.read?_append hl])
        rw [Source.width_append] at hothers
        simp only [Option.map_some, Guarded.liftM_some_bind, dif_pos hlength, hothers]
        cases readFrom (width front + width lexeme.text) lexeme.rest <;> rfl
termination_by ahead.length

end SceneFormula.Arithmetic
