import SceneFormula.Proofs.ArgumentLists
import SceneFormula.Proofs.Literals

namespace SceneFormula.Source
namespace ArgumentList

/-- Where reading stands behind a text: inside how many more parentheses, within quotes or not, and
behind which character. There is no such place if the list ends in the text, or an argument. -/
def advance : Nat → Bool → Char → List Char → Option (Nat × Bool × Char)
  | level, quoted, previous, [] => some (level, quoted, previous)
  | level, quoted, previous, c :: rest =>
    match move level quoted previous c with
    | .keep level quoted => advance level quoted c rest
    | .close | .comma => none

theorem advance_append {level : Nat} {quoted : Bool} {previous : Char} {text more : List Char} :
    advance level quoted previous (text ++ more) =
      (advance level quoted previous text).bind fun (level, quoted, previous) =>
        advance level quoted previous more := by
  induction text generalizing level quoted previous with
  | nil => rfl
  | cons c text ih =>
    rw [List.cons_append, advance, advance]
    cases move level quoted previous c with
    | keep level quoted => exact ih
    | close | comma => rfl

/-- What an argument list takes in goes to the argument at hand. -/
theorem resume_advance {level other : Nat} {quoted within : Bool} {previous last : Char}
    {text : List Char} (h : advance level quoted previous text = some (other, within, last))
    (offset : Nat) (more : List Char) :
    (resume level quoted previous offset (text ++ more)).texts =
        (text ++ (resume other within last 0 more).texts.headD []) ::
          (resume other within last 0 more).texts.tail ∧
      (resume level quoted previous offset (text ++ more)).rest =
        (resume other within last 0 more).rest := by
  induction text generalizing level quoted previous offset with
  | nil =>
    obtain ⟨rfl, rfl, rfl⟩ : level = other ∧ quoted = within ∧ previous = last := by
      simpa [advance] using h
    obtain ⟨ht, hr⟩ := resume_shift level quoted previous offset 0 more
    exact ⟨by rw [List.nil_append, ht]; rfl, hr⟩
  | cons c text ih =>
    rw [advance] at h
    rw [List.cons_append, resume_cons]
    cases hm : move level quoted previous c with
    | keep level quoted =>
      rw [hm] at h
      obtain ⟨ht, hr⟩ := ih h (offset + c.utf8Size)
      exact ⟨by rw [texts_push, ht]; rfl, hr⟩
    | close | comma =>
      rw [hm] at h
      cases h

/-- The text can stand in a list inside `least` or more parentheses of its own: all that it opens it
closes again. -/
def Balanced (least : Nat) (text : List Char) : Prop :=
  ∀ level ≥ least, ∀ previous, previous ≠ '\\' →
    ∃ last, last ≠ '\\' ∧ advance level false previous text = some (level, false, last)

namespace Balanced
variable {least other : Nat} {text more : List Char}

theorem mono (h : Balanced least text) (hl : least ≤ other) : Balanced other text :=
  fun level hlevel => h level (Nat.le_trans hl hlevel)

theorem nil (least : Nat) : Balanced least [] :=
  fun _ _ previous hp => ⟨previous, hp, rfl⟩

theorem append (h : Balanced least text) (hm : Balanced least more) :
    Balanced least (text ++ more) := by
  intro level hl previous hp
  obtain ⟨last, hlast, ha⟩ := h level hl previous hp
  obtain ⟨final, hf, hb⟩ := hm level hl last hlast
  exact ⟨final, hf, by rw [advance_append, ha]; exact hb⟩

theorem cons {c : Char} (hc : Balanced least [c]) (h : Balanced least text) :
    Balanced least (c :: text) :=
  hc.append h

/-- A character that has no meaning in argument lists. -/
theorem char {c : Char} (hc : c ∉ ['"', '(', ')', ',', '\\']) : Balanced 0 [c] := by
  intro level _ previous _
  simp only [List.mem_cons, List.not_mem_nil, or_false, not_or] at hc
  obtain ⟨hquote, hopen, hclose, hcomma, hslash⟩ := hc
  refine ⟨c, hslash, ?_⟩
  cases level <;> simp [advance, move, moveOutside, hquote, hopen, hclose, hcomma]

theorem of_plain (h : ∀ c ∈ text, c ∉ ['"', '(', ')', ',', '\\']) : Balanced 0 text := by
  induction text with
  | nil => exact nil 0
  | cons c text ih =>
    exact cons (char (h c List.mem_cons_self)) (ih fun d hd => h d (List.mem_cons_of_mem _ hd))

/-- A comma in parentheses. -/
theorem comma : Balanced 1 [','] := by
  intro level hl previous _
  obtain ⟨level, rfl⟩ := Nat.exists_eq_add_of_le' hl
  exact ⟨',', by decide, by simp [advance, move, moveOutside]⟩

theorem parentheses (h : Balanced 1 text) : Balanced 0 ('(' :: (text ++ [')'])) := by
  intro level _ previous _
  obtain ⟨last, _, ha⟩ := h (level + 1) (Nat.le_add_left 1 level) '(' (by decide)
  have hopen : move level false previous '(' = .keep (level + 1) false := by
    simp [move, moveOutside]
  have hclose : move (level + 1) false last ')' = .keep level false := by
    simp [move, moveOutside]
  refine ⟨')', by decide, ?_⟩
  rw [advance, hopen]
  change advance (level + 1) false '(' (text ++ [')']) = _
  rw [advance_append, ha]
  change advance (level + 1) false last [')'] = _
  rw [advance, hclose]
  rfl

private theorem advance_escaped (level : Nat) (previous : Char) (text : List Char) :
    advance level true previous (escape text) =
      some (level, true, text.getLast?.getD previous) := by
  induction text generalizing previous with
  | nil => rfl
  | cons c text ih =>
    have hlast : (c :: text).getLast?.getD previous = text.getLast?.getD c := by
      rw [List.getLast?_cons]
      rfl
    rw [escape_cons, hlast, ← ih c]
    by_cases hc : c = '"'
    · subst hc
      simp [advance, move]
    · simp [advance, move, hc]

/-- A text in quotes, if no backslash hides the closing one. -/
theorem quote (h : text.getLast? ≠ some '\\') : Balanced 0 (Source.quote text) := by
  intro level _ previous hp
  have hlast : text.getLast?.getD '"' ≠ '\\' := by
    cases hl : text.getLast? with
    | none => decide
    | some c =>
      rw [hl] at h
      exact fun hc => h (congrArg some hc)
  have hopen : move level false previous '"' = .keep level true := by
    simp [move, hp]
  have hclose : move level true (text.getLast?.getD '"') '"' = .keep level false := by
    cases level <;> simp [move, moveOutside, hlast]
  refine ⟨'"', by decide, ?_⟩
  rw [quote_eq, advance, hopen]
  change advance level true '"' (escape text ++ ['"']) = _
  rw [advance_append, advance_escaped]
  change advance level true (text.getLast?.getD '"') ['"'] = _
  rw [advance, hclose]
  rfl

end Balanced
end ArgumentList

section Lists
variable (gap : Nat)

def commaSeparated : List (List Char) → List Char
  | [] => []
  | text :: rest => ',' :: (List.replicate gap ' ' ++ text ++ commaSeparated rest)

def listed : List (List Char) → List Char
  | [] => []
  | text :: rest => text ++ commaSeparated gap rest

def parenthesized (texts : List (List Char)) : List Char :=
  '(' :: (listed gap texts ++ [')'])

def pieces : List (List Char) → List (List Char)
  | [] => []
  | text :: rest => text :: rest.map (List.replicate gap ' ' ++ ·)

theorem length_pieces (texts : List (List Char)) : (pieces gap texts).length = texts.length := by
  cases texts with
  | nil => rfl
  | cons text rest => rw [pieces, List.length_cons, List.length_map, List.length_cons]

end Lists

namespace ArgumentList
variable {gap : Nat}

theorem Balanced.commaSeparated {texts : List (List Char)} (h : ∀ text ∈ texts, Balanced 0 text) :
    Balanced 1 (commaSeparated gap texts) := by
  induction texts with
  | nil => exact nil 1
  | cons text texts ih =>
    have hspaces : Balanced 0 (List.replicate gap ' ') := of_plain fun c hc => by
      obtain rfl := List.eq_of_mem_replicate hc
      decide
    have htext := (hspaces.append (h text List.mem_cons_self)).mono (Nat.zero_le 1)
    exact comma.cons (htext.append (ih fun other ho => h other (List.mem_cons_of_mem _ ho)))

/-- A list in parentheses can be part of an argument. -/
theorem Balanced.parenthesized {texts : List (List Char)} (h : ∀ text ∈ texts, Balanced 0 text) :
    Balanced 0 (parenthesized gap texts) := by
  refine parentheses ?_
  cases texts with
  | nil => exact nil 1
  | cons text texts =>
    exact ((h text List.mem_cons_self).mono (Nat.zero_le 1)).append
      (Balanced.commaSeparated fun other ho => h other (List.mem_cons_of_mem _ ho))

/-- Reading takes the first text and then the others, each with its spaces. -/
private theorem resume_listed (gap : Nat) {previous : Char} (hp : previous ≠ '\\')
    {text : List Char} (ht : Balanced 0 text) {texts : List (List Char)}
    (h : ∀ text ∈ texts, Balanced 0 text) (offset : Nat) (rest : List Char) :
    (resume 0 false previous offset
        (text ++ Source.commaSeparated gap texts ++ ')' :: rest)).texts =
        text :: texts.map (List.replicate gap ' ' ++ ·) ∧
      (resume 0 false previous offset
        (text ++ Source.commaSeparated gap texts ++ ')' :: rest)).rest = some rest := by
  induction texts generalizing previous text offset with
  | nil =>
    obtain ⟨last, _, ha⟩ := ht 0 (Nat.le_refl 0) previous hp
    obtain ⟨htexts, hrest⟩ := resume_advance ha offset (')' :: rest)
    rw [Source.commaSeparated, List.append_nil, htexts, hrest]
    exact ⟨by simp [resume, texts, arguments], by simp [resume]⟩
  | cons next texts ih =>
    obtain ⟨last, hl, ha⟩ := ht 0 (Nat.le_refl 0) previous hp
    have hspaces : Balanced 0 (List.replicate gap ' ') := .of_plain fun c hc => by
      obtain rfl := List.eq_of_mem_replicate hc
      decide
    obtain ⟨hmore, hbehind⟩ := ih (by decide : ',' ≠ '\\')
      (hspaces.append (h next List.mem_cons_self))
      (fun other ho => h other (List.mem_cons_of_mem _ ho)) (0 + ','.utf8Size)
    have hcomma : move 0 false last ',' = .comma := by
      simp [move, moveOutside]
    rw [Source.commaSeparated, List.append_assoc]
    obtain ⟨htexts, hrest⟩ := resume_advance ha offset
      (',' :: (List.replicate gap ' ' ++ next ++ Source.commaSeparated gap texts) ++ ')' :: rest)
    rw [htexts, hrest, List.cons_append, resume_cons, hcomma]
    simp only [texts_pushEmpty, List.headD_cons, List.append_nil, List.tail_cons, hmore]
    exact ⟨rfl, hbehind⟩

/-- The texts of a list with one text or more are its pieces, a blank last one included. -/
theorem texts_read_listed (gap : Nat) {texts : List (List Char)} (hne : texts ≠ [])
    (h : ∀ text ∈ texts, Balanced 0 text) (rest : List Char) :
    (read 0 (listed gap texts ++ ')' :: rest)).texts = pieces gap texts ∧
      (read 0 (listed gap texts ++ ')' :: rest)).rest = some rest := by
  obtain ⟨text, texts, rfl⟩ := List.exists_cons_of_ne_nil hne
  exact resume_listed gap (by decide : '(' ≠ '\\') (h text List.mem_cons_self)
    (fun other ho => h other (List.mem_cons_of_mem _ ho)) 0 rest

private theorem trimmed_of_not_blank {texts : List (List Char)} (hne : texts ≠ [])
    (h : ∀ text ∈ texts, ∃ c ∈ text, c ≠ ' ') : trimmed texts = texts := by
  rw [trimmed, if_neg]
  intro hall
  rw [List.getLast?_eq_some_getLast hne, Option.getD_some, List.all_eq_true] at hall
  obtain ⟨c, hc, hspace⟩ := h _ (List.getLast_mem hne)
  exact hspace (by simpa using hall c hc)

/-- The texts of a list are read back as its pieces. An empty list has none. -/
theorem read_listed {texts : List (List Char)}
    (h : ∀ text ∈ texts, Balanced 0 text ∧ ∃ c ∈ text, c ≠ ' ') (rest : List Char) :
    (read 0 (listed gap texts ++ ')' :: rest)).rest = some rest ∧
      trimmed (read 0 (listed gap texts ++ ')' :: rest)).texts = pieces gap texts := by
  cases texts with
  | nil =>
    have hread : read 0 (')' :: rest) = ⟨⟨[], 0⟩, [], 0, some rest⟩ := by
      simp [read, resume]
    rw [listed, List.nil_append, hread]
    exact ⟨rfl, rfl⟩
  | cons text texts =>
    obtain ⟨htexts, hrest⟩ := resume_listed gap (by decide : '(' ≠ '\\')
      (h text List.mem_cons_self).1 (fun other ho => (h other (List.mem_cons_of_mem _ ho)).1) 0 rest
    refine ⟨hrest, ?_⟩
    rw [read, listed, htexts, pieces]
    refine trimmed_of_not_blank (List.cons_ne_nil _ _) fun piece hp => ?_
    rcases List.mem_cons.mp hp with rfl | hp
    · exact (h piece List.mem_cons_self).2
    · obtain ⟨other, ho, rfl⟩ := List.mem_map.mp hp
      obtain ⟨c, hc, hspace⟩ := (h other (List.mem_cons_of_mem _ ho)).2
      exact ⟨c, List.mem_append_right _ hc, hspace⟩

end ArgumentList
end SceneFormula.Source
