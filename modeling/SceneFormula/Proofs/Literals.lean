import SceneFormula.Formula.Textual

namespace SceneFormula
namespace Source

def escape (text : List Char) : List Char :=
  text.flatMap fun c => if c = '"' then ['\\', '"'] else [c]

theorem quote_eq (text : List Char) : quote text = '"' :: (escape text ++ ['"']) := rfl

theorem escape_cons (c : Char) (text : List Char) :
    escape (c :: text) = (if c = '"' then ['\\', '"'] else [c]) ++ escape text :=
  List.flatMap_cons

theorem head?_escape (text : List Char) : (escape text).head? ≠ some '"' := by
  cases text with
  | nil => simp [escape]
  | cons c text =>
    rw [escape_cons]
    by_cases hc : c = '"' <;> simp [hc]

theorem unescape_escape (text : List Char) : unescape (escape text) = text := by
  induction text with
  | nil => rfl
  | cons c text ih =>
    rw [escape_cons]
    by_cases hc : c = '"'
    · subst hc
      exact congrArg ('"' :: ·) ih
    · rw [if_neg hc, List.singleton_append]
      have hhead := head?_escape text
      unfold unescape
      split
      · rename_i rest he
        obtain ⟨-, hrest⟩ := List.cons.inj he
        rw [hrest] at hhead
        exact absurd rfl hhead
      · rename_i d rest _ he
        obtain ⟨rfl, rfl⟩ := List.cons.inj he
        rw [ih]
      · rename_i he
        cases he

/-- The closing quote of a quoted text is found. -/
theorem splitQuoted_escape {previous : Char} {text : List Char}
    (h : text.getLast?.getD previous ≠ '\\') (rest : List Char) :
    splitQuoted previous (escape text ++ '"' :: rest) = some (escape text, rest) := by
  induction text generalizing previous with
  | nil =>
    rw [escape, List.flatMap_nil, List.nil_append, splitQuoted, if_pos ⟨rfl, h⟩]
  | cons c text ih =>
    have hlast : (c :: text).getLast?.getD previous = text.getLast?.getD c := by
      rw [List.getLast?_cons]
      rfl
    rw [hlast] at h
    rw [escape_cons]
    by_cases hc : c = '"'
    · subst hc
      simp [splitQuoted, ih h]
    · simp [splitQuoted, hc, ih h]

end Source

/-- A quoted text behind spaces is compiled to the text. -/
theorem TextForm.compileWith_quote (context : Context) (compilers : Compilers) {text : String}
    (h : text.toList.getLast? ≠ some '\\') (spaces : Nat) :
    compileWith context compilers
        (String.ofList (List.replicate spaces ' ' ++ Source.quote text.toList)) =
      .ok ⟨[.literal text]⟩ := by
  have hlast : text.toList.getLast?.getD '"' ≠ '\\' := by
    cases hl : text.toList.getLast? with
    | none => decide
    | some c =>
      rw [hl] at h
      exact fun hc => h (congrArg some hc)
  have hspaces : ∀ c ∈ List.replicate spaces ' ', (!isTextMark c) = true := by
    intro c hc
    obtain rfl := List.eq_of_mem_replicate hc
    rfl
  have hbefore : (List.replicate spaces ' ' ++ Source.quote text.toList).takeWhile
      (!isTextMark ·) = List.replicate spaces ' ' := by
    rw [List.takeWhile_append_of_pos hspaces]
    simp [Source.quote, isTextMark]
  have hbehind : (List.replicate spaces ' ' ++ Source.quote text.toList).dropWhile
      (!isTextMark ·) = Source.quote text.toList := by
    rw [List.dropWhile_append_of_pos hspaces]
    simp [Source.quote, isTextMark]
  have hread : TextTerm.read? context compilers 0
      (List.replicate spaces ' ' ++ Source.quote text.toList) =
        some (.ok ⟨.literal text, Source.width (List.replicate spaces ' ') + 1 +
          Source.width (Source.escape text.toList) + 1, []⟩) := by
    have hsplit := Source.splitQuoted_escape hlast []
    simp only [TextTerm.read?, hbefore, hbehind]
    rw [Source.quote_eq]
    simp only [TextTerm.literal, hsplit, Source.unescape_escape, String.ofList_toList, Nat.zero_add]
  have hend (offset : Nat) : TextTerm.readAll context compilers offset [] = .ok [] := by
    rw [TextTerm.readAll]
    rfl
  have hall : TextTerm.readAll context compilers 0
      (List.replicate spaces ' ' ++ Source.quote text.toList) = .ok [.literal text] := by
    rw [TextTerm.readAll]
    split
    · rename_i hn
      rw [hread] at hn
      cases hn
    · rename_i fault hf
      rw [hread] at hf
      cases hf
    · rename_i term ht
      obtain rfl := Except.ok.inj (Option.some.inj (hread.symm.trans ht))
      simp only [TextTerm.joinFault?, List.dropWhile_nil, List.isEmpty_nil, if_true, hend]
  rw [compileWith, String.toList_ofList, hall]

end SceneFormula
