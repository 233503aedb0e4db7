import SceneFormula.Source.Basic
import SceneFormula.Source.Search

/-! What an argument list takes from a text. The texts of its arguments and what stands behind it
hang neither on the offset at which it is read nor on what follows its closing parenthesis. -/
namespace SceneFormula.Source.ArgumentList

def texts (list : ArgumentList) : List (List Char) :=
  list.arguments.map (·.text)

def trimmed (texts : List (List Char)) : List (List Char) :=
  if (texts.getLast?.getD []).all (· == ' ') then texts.dropLast else texts

theorem map_text_given (list : ArgumentList) : list.given.map (·.text) = trimmed list.texts := by
  have hl : (list.arguments.getLast?.getD list.first).text =
      ((list.arguments.map (·.text)).getLast?.getD []) := by
    rw [List.getLast?_map]
    simp [arguments, List.getLast?_cons]
  unfold given trimmed texts
  rw [hl]
  split
  · rw [List.map_dropLast]
  · rfl

theorem given_subset (list : ArgumentList) : list.given ⊆ list.arguments := by
  unfold given
  split
  · exact List.dropLast_subset _
  · exact List.Subset.refl _

/-- What a character does to a list: it belongs to the argument at hand, closes the list, or ends
the argument. -/
inductive Move where
  | keep (level : Nat) (quoted : Bool)
  | close
  | comma

def moveOutside (level : Nat) (c : Char) : Move :=
  if c = '(' then .keep (level + 1) false
  else
    match level with
    | level + 1 => .keep (if c = ')' then level else level + 1) false
    | 0 => if c = ')' then .close else if c = ',' then .comma else .keep 0 false

def move (level : Nat) (quoted : Bool) (previous c : Char) : Move :=
  if (if c = '"' ∧ previous ≠ '\\' then !quoted else quoted) then .keep level true
  else moveOutside level c

def pushEmpty (offset : Nat) (list : ArgumentList) : ArgumentList :=
  ⟨⟨[], offset⟩, list.arguments, list.stop, list.rest⟩

theorem resume_cons (level : Nat) (quoted : Bool) (previous : Char) (offset : Nat) (c : Char)
    (rest : List Char) :
    resume level quoted previous offset (c :: rest) =
      match move level quoted previous c with
      | .keep level quoted =>
        push c offset (resume level quoted c (offset + c.utf8Size) rest)
      | .close => ⟨⟨[], offset⟩, [], offset, some rest⟩
      | .comma => pushEmpty offset (resume 0 false c (offset + c.utf8Size) rest) := by
  rw [resume.eq_def, move]
  simp only
  generalize (if c = '"' ∧ previous ≠ '\\' then !quoted else quoted) = within
  cases within with
  | true => rfl
  | false =>
    by_cases hopen : c = '('
    · simp [moveOutside, hopen]
    · cases level with
      | succ level => simp [moveOutside, hopen]
      | zero =>
        by_cases hclose : c = ')'
        · simp [moveOutside, hclose]
        · by_cases hcomma : c = ','
          · simp [moveOutside, hcomma, pushEmpty]
          · simp [moveOutside, hopen, hclose, hcomma]

/-- The first argument starts where reading does. -/
theorem first_resume (level : Nat) (quoted : Bool) (previous : Char) (offset : Nat)
    (text : List Char) :
    (⟨(resume level quoted previous offset text).first.text, offset⟩ : Argument) =
      (resume level quoted previous offset text).first := by
  have hstart : (resume level quoted previous offset text).first.start = offset := by
    cases text with
    | nil => rfl
    | cons c text =>
      rw [resume_cons]
      split <;> rfl
  exact congrArg (Argument.mk _) hstart.symm

theorem move_eq_close {level : Nat} {quoted : Bool} {previous c : Char}
    (h : move level quoted previous c = .close) : c = ')' := by
  rw [move] at h
  generalize (if c = '"' ∧ previous ≠ '\\' then !quoted else quoted) = within at h
  cases within with
  | true => cases h
  | false =>
    by_cases hc : c = ')'
    · exact hc
    · by_cases hopen : c = '('
      · simp [moveOutside, hopen] at h
      · by_cases hcomma : c = ',' <;> cases level <;> simp [moveOutside, *] at h

theorem texts_push (c : Char) (offset : Nat) (list : ArgumentList) :
    (push c offset list).texts = (c :: (list.texts.headD [])) :: list.texts.tail := rfl

theorem texts_pushEmpty (offset : Nat) (list : ArgumentList) :
    (pushEmpty offset list).texts = [] :: list.texts := rfl

/-- The texts and the rest do not hang on the offset. -/
theorem resume_shift (level : Nat) (quoted : Bool) (previous : Char) (offset other : Nat)
    (text : List Char) :
    (resume level quoted previous offset text).texts =
        (resume level quoted previous other text).texts ∧
      (resume level quoted previous offset text).rest =
        (resume level quoted previous other text).rest := by
  induction text generalizing level quoted previous offset other with
  | nil => exact ⟨rfl, rfl⟩
  | cons c text ih =>
    rw [resume_cons, resume_cons]
    cases move level quoted previous c with
    | keep level quoted =>
      obtain ⟨ht, hr⟩ := ih level quoted c (offset + c.utf8Size) (other + c.utf8Size)
      exact ⟨by rw [texts_push, texts_push, ht], hr⟩
    | close => exact ⟨rfl, rfl⟩
    | comma =>
      obtain ⟨ht, hr⟩ := ih 0 false c (offset + c.utf8Size) (other + c.utf8Size)
      exact ⟨by rw [texts_pushEmpty, texts_pushEmpty, ht], hr⟩

theorem read_shift (offset other : Nat) (text : List Char) :
    (read offset text).texts = (read other text).texts ∧
      (read offset text).rest = (read other text).rest :=
  resume_shift 0 false '(' offset other text

def extend (list : ArgumentList) (more : List Char) : ArgumentList :=
  { list with rest := list.rest.map (· ++ more) }

/-- A list that is closed does not hang on what follows it. -/
theorem resume_append {level : Nat} {quoted : Bool} {previous : Char} {offset : Nat}
    {text rest : List Char} (h : (resume level quoted previous offset text).rest = some rest)
    (more : List Char) :
    resume level quoted previous offset (text ++ more) =
      (resume level quoted previous offset text).extend more := by
  induction text generalizing level quoted previous offset with
  | nil => cases h
  | cons c text ih =>
    rw [resume_cons] at h
    rw [List.cons_append, resume_cons, resume_cons]
    cases hm : move level quoted previous c with
    | keep level quoted =>
      rw [hm] at h
      exact congrArg (push c offset) (ih h)
    | close => rfl
    | comma =>
      rw [hm] at h
      exact congrArg (pushEmpty offset) (ih h)

/-- Reading stops at the closing parenthesis. -/
theorem resume_stop {level : Nat} {quoted : Bool} {previous : Char} {offset : Nat}
    {text rest : List Char} (h : (resume level quoted previous offset text).rest = some rest) :
    ∃ inside, text = inside ++ ')' :: rest ∧
      (resume level quoted previous offset text).stop = offset + width inside := by
  induction text generalizing level quoted previous offset with
  | nil => cases h
  | cons c text ih =>
    rw [resume_cons] at h ⊢
    cases hm : move level quoted previous c with
    | keep level quoted =>
      rw [hm] at h
      obtain ⟨inside, rfl, hs⟩ := ih h
      exact ⟨c :: inside, rfl, by rw [width_cons, ← Nat.add_assoc, ← hs]; rfl⟩
    | close =>
      rw [hm] at h
      obtain rfl := move_eq_close hm
      obtain rfl := Option.some.inj h
      exact ⟨[], rfl, rfl⟩
    | comma =>
      rw [hm] at h
      obtain ⟨inside, rfl, hs⟩ := ih h
      exact ⟨c :: inside, rfl, by rw [width_cons, ← Nat.add_assoc, ← hs]; rfl⟩

theorem read_append {offset : Nat} {text rest : List Char}
    (h : (read offset text).rest = some rest) (more : List Char) :
    read offset (text ++ more) = (read offset text).extend more :=
  resume_append h more

/-- The list that opens behind spaces, which starts behind its parenthesis. -/
theorem open?_eq_some_iff {offset : Nat} {text : List Char} {list : ArgumentList} :
    open? offset text = some list ↔
      ∃ spaces inside, text = List.replicate spaces ' ' ++ '(' :: inside ∧
        list = read (offset + spaces + 1) inside := by
  have hw : ∀ text : List Char, text.takeWhile (· == ' ') =
      List.replicate (text.takeWhile (· == ' ')).length ' ' := by
    intro text
    refine List.eq_replicate_iff.mpr ⟨rfl, fun b hb => ?_⟩
    simpa using List.all_eq_true.mp List.all_takeWhile b hb
  constructor
  · intro h
    unfold open? at h
    split at h
    · rename_i inside hd
      obtain rfl := Option.some.inj h
      refine ⟨_, inside, ?_, rfl⟩
      rw [← hw text, ← hd, List.takeWhile_append_dropWhile]
    · cases h
  · rintro ⟨spaces, inside, rfl, rfl⟩
    have ht : (List.replicate spaces ' ' ++ '(' :: inside).takeWhile (· == ' ') =
        List.replicate spaces ' ' := by
      rw [List.takeWhile_append_of_pos (by simp)]
      simp
    have hd : (List.replicate spaces ' ' ++ '(' :: inside).dropWhile (· == ' ') =
        '(' :: inside := by
      rw [List.dropWhile_append_of_pos (by simp)]
      simp
    simp only [open?, hd, ht, List.length_replicate]

end SceneFormula.Source.ArgumentList
