import SceneFormula.Proofs.MadeCalls
import SceneFormula.Proofs.Progress

namespace SceneFormula
open Source (ArgumentList width)

namespace Source

theorem utf8ByteSize_ofList (text : List Char) :
    (String.ofList text).utf8ByteSize = width text := by
  induction text with
  | nil => rfl
  | cons c text ih =>
    rw [← List.singleton_append, String.ofList_append, String.utf8ByteSize_append, ih, width_append]
    simp [width_cons, width_nil]

theorem width_toList (text : String) : width text.toList = text.utf8ByteSize := by
  rw [← utf8ByteSize_ofList, String.ofList_toList]

theorem length_le_width (text : List Char) : text.length ≤ width text := by
  induction text with
  | nil => exact Nat.le_refl 0
  | cons c text ih =>
    have := c.utf8Size_pos
    rw [List.length_cons, width_cons]
    omega

theorem width_le_of_infix {part text : List Char} (h : part <:+: text) :
    width part ≤ width text := by
  obtain ⟨before, after, rfl⟩ := h
  rw [width_append, width_append]
  omega

/-- Spaces are decoded to as many bytes. -/
theorem width_decodeSpaces (name : List Char) : width (decodeSpaces name) = width name := by
  induction name with
  | nil => rfl
  | cons c name ih =>
    have hc : (if c = '~' then ' ' else c).utf8Size = c.utf8Size := by
      split
      · rename_i h
        rw [h]
        rfl
      · rfl
    change (if c = '~' then ' ' else c).utf8Size + width (decodeSpaces name) = _
    rw [hc, ih, width_cons]

def ArgumentList.behind (list : ArgumentList) : Nat :=
  (list.rest.map (width · + 1)).getD 0

private theorem ArgumentList.width_resume {level : Nat} {quoted : Bool} {previous : Char}
    {offset : Nat} {text argument : List Char}
    (h : argument ∈ (resume level quoted previous offset text).texts) :
    width argument + (resume level quoted previous offset text).behind ≤ width text := by
  induction text generalizing level quoted previous offset argument with
  | nil =>
    obtain rfl := List.mem_singleton.mp h
    exact Nat.le_refl 0
  | cons c text ih =>
    rw [resume_cons] at h ⊢
    rw [width_cons]
    cases hm : move level quoted previous c with
    | keep level quoted =>
      rw [hm] at h
      dsimp only at h ⊢
      have hall := @ih level quoted c (offset + c.utf8Size)
      generalize resume level quoted c (offset + c.utf8Size) text = list at h hall
      rcases List.mem_cons.mp h with rfl | ho
      · have := hall (List.mem_cons_self : list.first.text ∈ _)
        change c.utf8Size + width list.first.text + list.behind ≤ _
        omega
      · have := hall (List.mem_cons_of_mem _ ho)
        change width argument + list.behind ≤ _
        omega
    | close =>
      rw [hm] at h
      obtain rfl := move_eq_close hm
      obtain rfl := List.mem_singleton.mp h
      have hclosing : ')'.utf8Size = 1 := rfl
      change 0 + (width text + 1) ≤ _
      omega
    | comma =>
      rw [hm] at h
      dsimp only at h ⊢
      have hall := @ih 0 false c (offset + c.utf8Size)
      generalize resume 0 false c (offset + c.utf8Size) text = list at h hall
      rcases List.mem_cons.mp h with rfl | ho
      · have := hall (List.mem_cons_self : list.first.text ∈ _)
        change 0 + list.behind ≤ _
        omega
      · have := hall ho
        change width argument + list.behind ≤ _
        omega

/-- An argument and all from the closing parenthesis on fit into the text that is read. -/
theorem ArgumentList.width_read {offset : Nat} {text argument : List Char}
    (h : argument ∈ (read offset text).texts) :
    width argument + (read offset text).behind ≤ width text :=
  width_resume h

/-- Every argument of every list in a text has fewer bytes than a bound. -/
def ArgumentsBelow (bound : Nat) (text : List Char) : Prop :=
  ∀ front inside, text = front ++ '(' :: inside →
    ∀ argument ∈ (ArgumentList.read 0 inside).texts, width argument < bound

theorem argumentsBelow_width (text : List Char) : ArgumentsBelow (width text) text := by
  rintro front inside rfl argument ha
  have hle := ArgumentList.width_read ha
  have hopening : '('.utf8Size = 1 := rfl
  rw [width_append, width_cons]
  omega

namespace ArgumentsBelow
variable {bound : Nat} {text used rest : List Char}

theorem mono (h : ArgumentsBelow bound text) {more : Nat} (hm : bound ≤ more) :
    ArgumentsBelow more text := by
  intro front inside ht argument ha
  exact (h front inside ht argument ha).trans_le hm

theorem of_append (h : ArgumentsBelow bound (used ++ rest)) : ArgumentsBelow bound rest := by
  rintro front inside rfl
  exact h (used ++ front) inside (by rw [List.append_assoc])

/-- The arguments of a list that opens behind spaces. -/
theorem of_open? (h : ArgumentsBelow bound text) {offset : Nat} {list : ArgumentList}
    (ho : ArgumentList.open? offset text = some list) {argument : Argument}
    (ha : argument ∈ list.arguments) : width argument.text < bound := by
  obtain ⟨spaces, inside, rfl, rfl⟩ := ArgumentList.open?_eq_some_iff.mp ho
  refine h (List.replicate spaces ' ') inside rfl argument.text ?_
  rw [← (ArgumentList.read_shift (offset + spaces + 1) 0 inside).1]
  exact List.mem_map_of_mem ha

/-- In the text of one call whose list closes at its end, an argument has at least two bytes less
than the text. An argument of a list inside that list stands behind two parentheses. -/
theorem of_closed {front inside : List Char} (hf : '(' ∉ front)
    (hc : (ArgumentList.read 0 inside).rest = some []) :
    ArgumentsBelow (width (front ++ '(' :: inside) - 1) (front ++ '(' :: inside) := by
  intro other more htext argument ha
  have hle := ArgumentList.width_read ha
  have hopening : '('.utf8Size = 1 := rfl
  have hsplit : more = inside ∧ width other = width front ∨
      ∃ between, other = front ++ '(' :: between ∧ inside = between ++ '(' :: more := by
    rcases List.append_eq_append_iff.mp htext with ⟨between, ho, hb⟩ | ⟨between, ho, hb⟩
    · cases between with
      | nil => exact .inl ⟨(List.cons.inj hb).2.symm, by rw [ho, List.append_nil]⟩
      | cons c between =>
        obtain ⟨hc, hinside⟩ := List.cons.inj hb
        exact .inr ⟨between, hc ▸ ho, hinside⟩
    · cases between with
      | nil => exact .inl ⟨(List.cons.inj hb).2, by rw [ho, List.append_nil]⟩
      | cons c between =>
        obtain ⟨hc, -⟩ := List.cons.inj hb
        exact absurd (ho ▸ List.mem_append_right other (hc ▸ List.mem_cons_self)) hf
  rcases hsplit with ⟨rfl, hw⟩ | ⟨between, rfl, rfl⟩
  · have hbehind : (ArgumentList.read 0 more).behind = 1 := by
      rw [ArgumentList.behind, hc]
      rfl
    simp only [width_append, width_cons]
    omega
  · simp only [width_append, width_cons]
    omega

end ArgumentsBelow
end Source
open Source (ArgumentsBelow)

/-- In the text of a call arguments are shorter by two bytes, and by one more if it has a name. -/
theorem WrittenCall.argumentsBelow_span {site : WrittenCall}
    (hn : ∀ c ∈ site.name, Callee.isMark c = false)
    (hm : ∀ member spaces, site.member = some (member, spaces) →
      ∀ c ∈ member, Callee.endsMember c = false)
    (hc : (ArgumentList.read 0 (site.inside ++ [')'])).rest = some []) :
    ArgumentsBelow (width site.span - 1) site.span := by
  obtain ⟨front, hhead, hf⟩ : ∃ front, site.head = front ++ ['('] ∧ '(' ∉ front := by
    have hname : '(' ∉ site.name := fun hc => Bool.false_ne_true (hn '(' hc).symm
    rw [head]
    cases hmember : site.member with
    | none => exact ⟨site.name, rfl, hname⟩
    | some pair =>
      have hp : '(' ∉ pair.1 := fun hc =>
        Bool.false_ne_true (hm pair.1 pair.2 hmember '(' hc).symm
      exact ⟨_, rfl, by simp [hname, hp]⟩
  have hspan : site.span = front ++ '(' :: (site.inside ++ [')']) := by simp [span, hhead]
  rw [hspan]
  exact .of_closed hf hc

/-- A receiver is shorter than the text in which its call is written. -/
theorem Callee.Splits.width_receiver {text : List Char} {callee : Callee} (hs : callee.Splits text)
    {world : World} {kind : ResultKind} {target : Target}
    (ht : world.resolve kind callee.receiver? (String.ofList callee.function) = some target)
    {receiver : String} (hr : receiver ∈ target.receivers) :
    width receiver.toList < width text := by
  have hmeans := World.resolve_eq_some_iff.mp ht
  rw [← hs.text, Callee.written]
  rw [Callee.receiver?, Callee.function] at hmeans
  have hdot : '.'.utf8Size = 1 := rfl
  cases hm : callee.member with
  | none =>
    rw [hm] at hmeans
    cases hmeans
    cases hr
  | some member =>
    rw [hm, Option.map_some] at hmeans
    simp only [Option.map_some, Option.getD_some, Source.width_append, Source.width_cons]
    have hobject : width (String.ofList (Source.decodeSpaces callee.name)).toList =
        width callee.name := by rw [String.toList_ofList, Source.width_decodeSpaces]
    cases hmeans with
    | object =>
      obtain rfl := List.mem_singleton.mp hr
      omega
    | @component _ _ part inner _ _ hn _ _ _ _ =>
      rcases List.mem_cons.mp hr with rfl | hpart
      · omega
      · obtain rfl := List.mem_singleton.mp hpart
        rw [Option.getD_some, String.toList_ofList] at hn
        rw [Source.splitComponent_eq hn, String.toList_ofList, Source.width_append]
        omega

end SceneFormula
