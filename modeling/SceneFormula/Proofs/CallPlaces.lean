import SceneFormula.Call.Place
import SceneFormula.Proofs.ByteLists

namespace SceneFormula
open Source

namespace Source
variable (front : List Char) {c d : Char} {gap : List Char}

theorem indexOf?_append (hc : c.toNat < 128) (hg : c ∉ gap) (more : List Char) :
    indexOf? (front ++ (gap ++ c :: more)) c (width front) = some (width (front ++ gap)) :=
  indexOfByte?_append front (marks_char hc)
    (fun d hd => beq_false_of_ne fun h : d = c => hg (h ▸ hd)) (beq_self_eq_true c) more

theorem indexOf?_eq_none (hc : c.toNat < 128) (hg : c ∉ gap) :
    indexOf? (front ++ gap) c (width front) = none :=
  indexOfByte?_eq_none front (marks_char hc)
    fun d hd => beq_false_of_ne fun h : d = c => hg (h ▸ hd)

/-- A character that is missing from a part of the text is found behind that part. -/
theorem le_of_indexOf? (hc : c.toNat < 128) (hg : c ∉ gap) {more : List Char} {found : Nat}
    (h : indexOf? (front ++ (gap ++ more)) c (width front) = some found) :
    width (front ++ gap) ≤ found := by
  by_cases hm : c ∈ more
  · obtain ⟨reach, behind, rfl, hr⟩ := List.eq_append_cons_of_mem hm
    have hgap : c ∉ gap ++ reach := by simp [hg, hr]
    have hfound := indexOf?_append front hc hgap behind
    rw [List.append_assoc, h] at hfound
    obtain rfl := Option.some.inj hfound
    simp only [width_append]
    omega
  · rw [indexOf?_eq_none front hc (by simp [hg, hm])] at h
    cases h

/-- Of two characters that are missing from a part of the text, the one behind that part comes
first. -/
theorem comesBefore_indexOf? (hc : c.toNat < 128) (hd : d.toNat < 128) (hcd : c ≠ d)
    (hg : c ∉ gap) (hdg : d ∉ gap) (more : List Char) :
    comesBefore (indexOf? (front ++ (gap ++ c :: more)) c (width front))
        (indexOf? (front ++ (gap ++ c :: more)) d (width front)) = true ∧
      comesBefore (indexOf? (front ++ (gap ++ c :: more)) d (width front))
        (indexOf? (front ++ (gap ++ c :: more)) c (width front)) = false := by
  rw [indexOf?_append front hc hg]
  cases hf : indexOf? (front ++ (gap ++ c :: more)) d (width front) with
  | none => exact ⟨rfl, rfl⟩
  | some found =>
    have hfar : d ∉ gap ++ [c] := by simp [hdg, Ne.symm hcd]
    have htext : front ++ (gap ++ c :: more) = front ++ (gap ++ [c] ++ more) := by simp
    have hle := le_of_indexOf? front hd hfar (htext ▸ hf)
    have hpos := c.utf8Size_pos
    rw [← List.append_assoc, width_append, width_cons] at hle
    exact ⟨decide_eq_true (by omega), decide_eq_false (by omega)⟩

def isBroken? (separators name : List Char) : Option Bool :=
  if name = [] then some false
  else (slice? name 0 (width name.dropLast)).map (·.any separators.contains)

theorem isBroken?_eq (separators name : List Char) :
    isBroken? separators name = some (isBroken separators name) := by
  rw [isBroken?]
  split
  · rename_i h
    rw [h]
    rfl
  · rename_i h
    have hslice := slice?_append [] name.dropLast [name.getLast h]
    rw [List.nil_append, List.dropLast_concat_getLast] at hslice
    rw [show slice? name 0 (width name.dropLast) = _ from hslice]
    rfl

end Source

namespace CallPlace

def ofMarks? (text separators : List Char) (start : Nat) (dot paren : Option Nat) :
    Option (Option CallPlace) :=
  let bare := comesBefore paren dot
  match if bare then paren else dot with
  | none => some none
  | some mark => do
    let start := max (nameOrigin text separators mark) start
    let name ← slice? text start mark
    let stop := indexOfAny? text [' ', '('] mark
    let function ← if bare then some name else slice? text (mark + 1) (stop.getD (width text))
    pure (some { start, mark, bare
                 object := String.ofList (decodeSpaces name)
                 function := String.ofList function
                 functionEnd := if bare then some mark else stop })

def ofCallee (offset : Nat) (callee : Callee) : CallPlace where
  start := offset + width callee.lead
  mark := offset + width (callee.lead ++ callee.name)
  object := String.ofList (decodeSpaces callee.name)
  function := String.ofList callee.function
  functionEnd :=
    if callee.tail = [] then none else some (offset + width (callee.lead ++ callee.written))
  bare := callee.member.isNone

theorem receiver?_ofCallee (offset : Nat) (callee : Callee) :
    (ofCallee offset callee).receiver? = callee.receiver? := by
  rw [receiver?, ofCallee, Callee.receiver?]
  cases callee.member <;> rfl

section Marks
variable (front : List Char) {callee : Callee} {rest : List Char}

private theorem not_marks {part : List Char} (h : ∀ c ∈ part, Callee.isMark c = false) :
    '.' ∉ part ∧ '(' ∉ part :=
  ⟨fun hc => Bool.false_ne_true (h '.' hc).symm, fun hc => Bool.false_ne_true (h '(' hc).symm⟩

/-- Where the name starts that ends at a mark. -/
private theorem start_eq (hs : callee.Splits rest) (more : List Char) :
    max (nameOrigin (front ++ (callee.lead ++ callee.name ++ more)) separators
        (width (front ++ (callee.lead ++ callee.name)))) (width front) =
      width front + width callee.lead := by
  have hstart := (@eq_max_nameOrigin_iff front callee.lead callee.name more).mpr
    ⟨hs.plain, hs.seam⟩
  simp only [List.append_assoc] at hstart ⊢
  rw [Nat.max_comm, ← hstart, width_append]

private theorem ofMarks?_bare (hs : callee.Splits rest) (hm : callee.member = none) :
    ofMarks? (front ++ rest) separators (width front)
        (indexOf? (front ++ rest) '.' (width front)) (indexOf? (front ++ rest) '(' (width front)) =
      some (some (ofCallee (width front) callee)) := by
  obtain ⟨after, htail⟩ := hs.bare hm
  obtain ⟨hdot, hparen⟩ := not_marks hs.unmarked
  have hwritten : callee.written = callee.name := by simp [Callee.written, hm]
  have htext : rest = callee.lead ++ callee.name ++ '(' :: after := by
    rw [← hs.text, hwritten, htail]
  obtain ⟨hfirst, -⟩ := comesBefore_indexOf? front (by decide : '('.toNat < 128)
    (by decide : '.'.toNat < 128) (by decide) hparen hdot after
  have hmark := indexOf?_append front (by decide : '('.toNat < 128) hparen after
  rw [← htext] at hfirst hmark
  have hstart := start_eq front hs ('(' :: after)
  rw [← htext] at hstart
  have hname : slice? (front ++ rest) (width front + width callee.lead)
      (width (front ++ (callee.lead ++ callee.name))) = some callee.name := by
    refine @slice?_eq _ (front ++ callee.lead) callee.name ('(' :: after) _ _ ?_ ?_ ?_
    · rw [htext]
      simp
    · rw [width_append]
    · rw [List.append_assoc]
  rw [ofMarks?, hfirst]
  simp only [hmark, if_true, hstart, hname, Option.bind_eq_bind, Option.bind_some, Option.pure_def]
  simp [ofCallee, Callee.function, hm, htail, hwritten]

/-- Where the name of the function ends that stands behind a dot. -/
private theorem functionEnd_eq (hs : callee.Splits rest) {member : List Char}
    (hm : callee.member = some member) :
    indexOfAny? (front ++ rest) [' ', '('] (width (front ++ (callee.lead ++ callee.name))) =
      (ofCallee (width front) callee).functionEnd := by
  obtain ⟨hplain, hstop⟩ := hs.member member hm
  have hmarks : Marks (bytes [' ', '(']).contains [' ', '('].contains := by
    refine marks_set fun c hc => ?_
    rcases List.mem_cons.mp hc with rfl | hc
    · decide
    · obtain rfl := List.mem_singleton.mp hc
      decide
  have hset (c : Char) : [' ', '('].contains c = Callee.endsMember c := by
    rw [List.contains_cons, List.contains_cons, List.contains_nil, Bool.or_false]
    rfl
  have hgap : ∀ c ∈ '.' :: member, [' ', '('].contains c = false := by
    intro c hc
    rw [hset]
    rcases List.mem_cons.mp hc with rfl | hc
    · rfl
    · exact hplain c hc
  have htext : front ++ rest = front ++ (callee.lead ++ callee.name) ++
      ('.' :: member ++ callee.tail) := by
    simp [← hs.text, Callee.written, hm]
  rw [htext, indexOfAny?, ofCallee]
  cases ht : callee.tail with
  | nil =>
    rw [List.append_nil]
    exact indexOfByte?_eq_none _ hmarks hgap
  | cons c more =>
    have hc : [' ', '('].contains c = true := by
      rw [hset]
      exact hstop c (by rw [ht]; rfl)
    rw [indexOfByte?_append _ hmarks hgap hc]
    simp [Callee.written, hm]

private theorem ofMarks?_member (hs : callee.Splits rest) {member : List Char}
    (hm : callee.member = some member) :
    ofMarks? (front ++ rest) separators (width front)
        (indexOf? (front ++ rest) '.' (width front)) (indexOf? (front ++ rest) '(' (width front)) =
      some (some (ofCallee (width front) callee)) := by
  obtain ⟨hdot, hparen⟩ := not_marks hs.unmarked
  have hwritten : callee.written = callee.name ++ '.' :: member := by simp [Callee.written, hm]
  have htext : rest = callee.lead ++ callee.name ++ '.' :: (member ++ callee.tail) := by
    rw [← hs.text, hwritten]
    simp
  obtain ⟨-, hsecond⟩ := comesBefore_indexOf? front (by decide : '.'.toNat < 128)
    (by decide : '('.toNat < 128) (by decide) hdot hparen (member ++ callee.tail)
  have hmark := indexOf?_append front (by decide : '.'.toNat < 128) hdot (member ++ callee.tail)
  rw [← htext] at hsecond hmark
  have hstart := start_eq front hs ('.' :: (member ++ callee.tail))
  rw [← htext] at hstart
  have hname : slice? (front ++ rest) (width front + width callee.lead)
      (width (front ++ (callee.lead ++ callee.name))) = some callee.name := by
    refine @slice?_eq _ (front ++ callee.lead) callee.name ('.' :: (member ++ callee.tail))
      _ _ ?_ ?_ ?_
    · rw [htext]
      simp
    · rw [width_append]
    · rw [List.append_assoc]
  have hend := functionEnd_eq front hs hm
  have hfunction : slice? (front ++ rest) (width (front ++ (callee.lead ++ callee.name)) + 1)
      ((ofCallee (width front) callee).functionEnd.getD (width (front ++ rest))) = some member := by
    refine @slice?_eq _ (front ++ (callee.lead ++ callee.name ++ ['.'])) member callee.tail
      _ _ ?_ ?_ ?_
    · rw [htext]
      simp
    · have hwidth : '.'.utf8Size = 1 := rfl
      simp [hwidth, Nat.add_assoc]
    · rw [ofCallee, ← hs.text, hwritten]
      cases callee.tail <;> simp
  rw [ofMarks?, hsecond]
  simp only [hmark, Bool.false_eq_true, if_false, hstart, hname, hend, hfunction,
    Option.bind_eq_bind, Option.bind_some, Option.pure_def]
  simp [ofCallee, Callee.function, hm]

/-- The marks of a text tell where its next call stands, if there is one. -/
theorem ofMarks?_eq (rest : List Char) :
    ofMarks? (front ++ rest) separators (width front)
        (indexOf? (front ++ rest) '.' (width front)) (indexOf? (front ++ rest) '(' (width front)) =
      some ((Callee.next? rest).map (ofCallee (width front))) := by
  cases hn : Callee.next? rest with
  | none =>
    obtain ⟨hdot, hparen⟩ := not_marks (Callee.next?_eq_none_iff.mp hn)
    rw [indexOf?_eq_none front (by decide) hdot, indexOf?_eq_none front (by decide) hparen]
    rfl
  | some callee =>
    have hs := Callee.next?_eq_some_iff.mp hn
    cases hm : callee.member with
    | none => exact ofMarks?_bare front hs hm
    | some member => exact ofMarks?_member front hs hm

end Marks

/-- Where no slice fails, the place is the one that is found without asking. -/
theorem ofMarks_eq_of_ofMarks? {text separators : List Char} {start : Nat} {dot paren : Option Nat}
    {found : Option CallPlace} (h : ofMarks? text separators start dot paren = some found) :
    ofMarks text separators start dot paren = found := by
  have hbetween {first last : Nat} {part : List Char} (hp : slice? text first last = some part) :
      between text first last = part := by
    rw [slice?] at hp
    split at hp
    · exact Option.some.inj hp
    · cases hp
  unfold ofMarks? at h
  unfold ofMarks
  cases hbare : comesBefore paren dot with
  | true =>
    simp only [hbare, if_true] at h ⊢
    cases paren with
    | none => exact Option.some.inj h
    | some mark =>
      obtain ⟨name, hname, h⟩ := Option.bind_eq_some_iff.mp h
      obtain rfl := Option.some.inj h
      simp only [Option.map_some, hbetween hname]
  | false =>
    simp only [hbare, Bool.false_eq_true, if_false] at h ⊢
    cases dot with
    | none => exact Option.some.inj h
    | some mark =>
      obtain ⟨name, hname, h⟩ := Option.bind_eq_some_iff.mp h
      obtain ⟨function, hfunction, h⟩ := Option.bind_eq_some_iff.mp h
      obtain rfl := Option.some.inj h
      simp only [Option.map_some, hbetween hname, hbetween hfunction]

/-- Without asking, too, the marks of a text tell where its next call stands. -/
theorem ofMarks_eq (front rest : List Char) :
    ofMarks (front ++ rest) separators (width front)
        (indexOf? (front ++ rest) '.' (width front)) (indexOf? (front ++ rest) '(' (width front)) =
      (Callee.next? rest).map (ofCallee (width front)) :=
  ofMarks_eq_of_ofMarks? (ofMarks?_eq front rest)

end CallPlace
end SceneFormula
