import SceneFormula.Proofs.ArgumentLists

namespace SceneFormula.Source

inductive Argument.StandsIn : List Char → Argument → Prop
  | intro {before text after : List Char} {opening : Char} (ho : opening ∈ ['(', ','])
    (ha : ∀ c ∈ after.head?, c ∈ [',', ')']) (hne : text ++ after ≠ []) :
    StandsIn (before ++ opening :: (text ++ after)) ⟨text, width before + 1⟩

namespace ArgumentList

/-- Arguments in a text that starts at an offset, with commas between them. The last one ends at the
parenthesis before `rest`, or with the text. -/
inductive Laid : Option (List Char) → Nat → List Char → List Argument → Prop
  | opened (start : Nat) (text : List Char) : Laid none start text [⟨text, start⟩]
  | closed (start : Nat) (text rest : List Char) :
    Laid (some rest) start (text ++ ')' :: rest) [⟨text, start⟩]
  | comma {rest : Option (List Char)} {start : Nat} {text more : List Char}
    {arguments : List Argument} (h : Laid rest (start + width text + 1) more arguments) :
    Laid rest start (text ++ ',' :: more) (⟨text, start⟩ :: arguments)

private theorem Laid.push {rest : Option (List Char)} {c : Char} {offset : Nat} {text : List Char}
    {list : ArgumentList} (h : Laid rest (offset + c.utf8Size) text list.arguments) :
    Laid rest offset (c :: text) (list.push c offset).arguments := by
  obtain ⟨first, others, stop, behind⟩ := list
  change Laid rest _ text (first :: others) at h
  cases h with
  | opened => exact .opened offset (c :: text)
  | closed _ text rest => exact .closed offset (c :: text) rest
  | @comma _ _ text more _ h =>
    have hmore : Laid rest (offset + width (c :: text) + 1) more others := by
      rwa [width_cons, ← Nat.add_assoc]
    exact .comma hmore

private theorem move_eq_comma {level : Nat} {quoted : Bool} {previous c : Char}
    (h : move level quoted previous c = .comma) : c = ',' := by
  rw [move] at h
  generalize (if c = '"' ∧ previous ≠ '\\' then !quoted else quoted) = within at h
  cases within with
  | true => cases h
  | false =>
    by_cases hc : c = ','
    · exact hc
    · by_cases hopen : c = '('
      · simp [moveOutside, hopen] at h
      · by_cases hclose : c = ')' <;> cases level <;> simp [moveOutside, *] at h

private theorem resume_laid (level : Nat) (quoted : Bool) (previous : Char) (offset : Nat)
    (text : List Char) :
    Laid (resume level quoted previous offset text).rest offset text
      (resume level quoted previous offset text).arguments := by
  induction text generalizing level quoted previous offset with
  | nil => exact .opened offset []
  | cons c text ih =>
    rw [resume_cons]
    cases hm : move level quoted previous c with
    | keep level quoted => exact (ih level quoted c (offset + c.utf8Size)).push
    | close =>
      obtain rfl := move_eq_close hm
      exact .closed offset [] text
    | comma =>
      obtain rfl := move_eq_comma hm
      exact @Laid.comma _ offset [] text _ (ih 0 false ',' (offset + 1))

/-- A list that is read to the end of the text stops there. -/
private theorem resume_stop_of_open {level : Nat} {quoted : Bool} {previous : Char} {offset : Nat}
    {text : List Char} (h : (resume level quoted previous offset text).rest = none) :
    (resume level quoted previous offset text).stop = offset + width text := by
  induction text generalizing level quoted previous offset with
  | nil => rfl
  | cons c text ih =>
    rw [resume_cons] at h ⊢
    cases hm : move level quoted previous c with
    | keep level quoted =>
      rw [hm] at h
      rw [width_cons, ← Nat.add_assoc, ← ih h]
      rfl
    | close =>
      rw [hm] at h
      cases h
    | comma =>
      rw [hm] at h
      rw [width_cons, ← Nat.add_assoc, ← ih h]
      rfl

namespace Laid
variable {rest : Option (List Char)} {start : Nat} {text : List Char}
  {before behind : List Argument} {argument : Argument}

/-- What stands on both sides of an argument. -/
private theorem split (h : Laid rest start text (before ++ argument :: behind)) :
    ∃ front after, text = front ++ argument.text ++ after ∧
      argument.start = start + width front ∧ (∀ c ∈ front.getLast?, c = ',') ∧
      (∀ c ∈ after.head?, c ∈ [',', ')']) ∧ (after = [] → behind = [] ∧ rest = none) := by
  induction before generalizing start text with
  | nil =>
    cases h with
    | opened => exact ⟨[], [], by simp, rfl, by simp, by simp, fun _ => ⟨rfl, rfl⟩⟩
    | closed _ text rest => exact ⟨[], ')' :: rest, rfl, rfl, by simp, by simp, by simp⟩
    | comma => exact ⟨[], _, rfl, rfl, by simp, by simp, by simp⟩
  | cons first before ih =>
    generalize hall : first :: before ++ argument :: behind = arguments at h
    cases h with
    | opened => simp at hall
    | closed => simp at hall
    | @comma _ _ text more others h =>
      obtain ⟨rfl, rfl⟩ := List.cons.inj hall
      obtain ⟨front, after, rfl, hs, hf, ha, hend⟩ := ih h
      refine ⟨text ++ ',' :: front, after, by simp, ?_, ?_, ha, hend⟩
      · rw [hs, width_append, width_cons]
        have : ','.utf8Size = 1 := rfl
        omega
      · intro c hc
        rw [List.getLast?_append, List.getLast?_cons] at hc
        cases hl : front.getLast? with
        | none => simpa [hl, eq_comm] using hc
        | some d =>
          obtain rfl : d = c := by simpa [hl] using hc
          exact hf d hl

/-- An argument stands behind what opens its list, unless nothing at all is written there. -/
private theorem standsIn (front : List Char)
    (h : Laid rest (width front + 1) text (before ++ argument :: behind))
    (hne : argument.text ≠ [] ∨ behind ≠ [] ∨ rest ≠ none) :
    argument.StandsIn (front ++ '(' :: text) := by
  obtain ⟨lead, after, rfl, hs, hl, ha, hend⟩ := h.split
  obtain ⟨written, start⟩ := argument
  have hwritten : written ++ after ≠ [] := by
    intro hnil
    obtain ⟨rfl, rfl⟩ := List.append_eq_nil_iff.mp hnil
    obtain ⟨rfl, rfl⟩ := hend rfl
    simp at hne
  change start = width front + 1 + width lead at hs
  rcases List.eq_nil_or_concat lead with rfl | ⟨init, c, rfl⟩
  · obtain rfl := hs
    exact .intro (by simp) ha hwritten
  · obtain rfl : c = ',' := hl c (by simp)
    have hcomma : ','.utf8Size = 1 := rfl
    have hopening : '('.utf8Size = 1 := rfl
    obtain rfl : start = width (front ++ '(' :: init) + 1 := by
      rw [hs, List.concat_eq_append, width_append, width_append, width_cons, width_cons, width_nil]
      omega
    have hin := @Argument.StandsIn.intro (front ++ '(' :: init) written after ',' (by simp) ha
      hwritten
    simpa using hin

end Laid

theorem width_spaces (count : Nat) : width (List.replicate count ' ') = count := by
  induction count with
  | zero => rfl
  | succ count ih =>
    rw [List.replicate_succ, width_cons, ih]
    exact Nat.add_comm 1 count

/-- An argument that is given is not empty, or another one follows it. -/
private theorem exists_split_of_mem_given {list : ArgumentList} {argument : Argument}
    (h : argument ∈ list.given) :
    ∃ before behind, list.arguments = before ++ argument :: behind ∧
      (argument.text ≠ [] ∨ behind ≠ []) := by
  have hne : list.arguments ≠ [] := List.cons_ne_nil _ _
  have hlast := List.getLast?_eq_some_getLast hne
  unfold given at h
  rw [hlast, Option.getD_some] at h
  split at h
  · obtain ⟨before, behind, hsplit⟩ := List.append_of_mem h
    refine ⟨before, behind ++ [list.arguments.getLast hne], ?_, .inr (by simp)⟩
    have hall := List.dropLast_concat_getLast hne
    rw [hsplit, List.append_assoc, List.cons_append] at hall
    exact hall.symm
  · rename_i hblank
    obtain ⟨before, behind, hsplit⟩ := List.append_of_mem h
    refine ⟨before, behind, hsplit, ?_⟩
    rcases List.eq_nil_or_concat behind with rfl | ⟨init, final, rfl⟩
    · left
      rintro hempty
      have hargument : list.arguments.getLast? = some argument := by
        rw [hsplit]
        simp
      obtain rfl := Option.some.inj (hlast.symm.trans hargument)
      rw [hempty] at hblank
      exact hblank rfl
    · exact .inr (by simp)

section Open
variable {front text : List Char} {list : ArgumentList}

private theorem exists_read_of_open? (h : open? (width front) text = some list) :
    ∃ lead inside, text = lead ++ '(' :: inside ∧
      list = read (width (front ++ lead) + 1) inside := by
  obtain ⟨spaces, inside, rfl, rfl⟩ := open?_eq_some_iff.mp h
  exact ⟨List.replicate spaces ' ', inside, rfl, by rw [width_append, width_spaces]⟩

/-- Each argument of a closed list stands in the text. -/
theorem standsIn_of_mem_arguments (h : open? (width front) text = some list)
    (hr : list.rest ≠ none) {argument : Argument} (ha : argument ∈ list.arguments) :
    argument.StandsIn (front ++ text) := by
  obtain ⟨lead, inside, rfl, rfl⟩ := exists_read_of_open? h
  obtain ⟨before, behind, hsplit⟩ := List.append_of_mem ha
  have hl := resume_laid 0 false '(' (width (front ++ lead) + 1) inside
  rw [← read, hsplit] at hl
  rw [← List.append_assoc]
  exact hl.standsIn (front ++ lead) (.inr (.inr hr))

/-- Each argument that is given stands in the text, whether the list is closed or not. -/
theorem standsIn_of_mem_given (h : open? (width front) text = some list) {argument : Argument}
    (ha : argument ∈ list.given) : argument.StandsIn (front ++ text) := by
  obtain ⟨lead, inside, rfl, rfl⟩ := exists_read_of_open? h
  have hl := resume_laid 0 false '(' (width (front ++ lead) + 1) inside
  rw [← read] at hl
  obtain ⟨before, behind, hsplit, hne⟩ := exists_split_of_mem_given ha
  rw [hsplit] at hl
  rw [← List.append_assoc]
  exact hl.standsIn (front ++ lead) (hne.imp_right Or.inl)

/-- A list that is not closed runs to the end of the text. -/
theorem stop_of_open (h : open? (width front) text = some list) (hr : list.rest = none) :
    list.stop = width (front ++ text) := by
  obtain ⟨lead, inside, rfl, rfl⟩ := exists_read_of_open? h
  have hopening : '('.utf8Size = 1 := rfl
  have hstop := resume_stop_of_open hr
  rw [← read] at hstop
  rw [hstop, ← List.append_assoc, width_append _ ('(' :: inside), width_cons]
  omega

/-- A list that is closed stops at its parenthesis. -/
theorem stop_of_closed (h : open? (width front) text = some list) {rest : List Char}
    (hr : list.rest = some rest) :
    ∃ used, text = used ++ ')' :: rest ∧ list.stop = width (front ++ used) := by
  obtain ⟨lead, inside, rfl, rfl⟩ := exists_read_of_open? h
  obtain ⟨used, rfl, hstop⟩ := resume_stop hr
  have hopening : '('.utf8Size = 1 := rfl
  refine ⟨lead ++ '(' :: used, by simp, ?_⟩
  rw [← read] at hstop
  rw [hstop, ← List.append_assoc, width_append _ ('(' :: used), width_cons]
  omega

end Open
end ArgumentList
end SceneFormula.Source
