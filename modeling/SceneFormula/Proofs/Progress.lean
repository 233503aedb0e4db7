import SceneFormula.Formula.Compile
import SceneFormula.Proofs.ArgumentPlaces
import SceneFormula.Proofs.Seams

/-! How far reading gets. It goes on at the offset of what is left, so that every offset is the
width of what was read. -/
namespace SceneFormula
open Source (ArgumentList width)

section Lists
variable {front text : List Char} {list : ArgumentList}

theorem ne_nil_of_open? {offset : Nat} (h : ArgumentList.open? offset text = some list) :
    text ≠ [] := by
  rintro rfl
  cases h

/-- A call runs through the parenthesis that closes its list. -/
theorem Callee.Splits.exists_used {callee : Callee} (hs : callee.Splits text)
    (ho : ArgumentList.open? (width (front ++ (callee.lead ++ callee.written))) callee.tail =
      some list) {rest : List Char} (hr : list.rest = some rest) :
    ∃ used, text = used ++ rest ∧ list.stop + 1 = width (front ++ used) := by
  obtain ⟨used, htail, hstop⟩ := ArgumentList.stop_of_closed ho hr
  refine ⟨callee.lead ++ callee.written ++ used ++ [')'], ?_, ?_⟩
  · rw [← hs.text, htail]
    simp
  · have hclosing : ')'.utf8Size = 1 := rfl
    simp only [hstop, Source.width_append, Source.width_cons, Source.width_nil, hclosing]
    omega

end Lists

section Reading
variable {context : Context} {compilers : Compilers} {front text : List Char}

namespace Stretch

theorem nameEnd_eq {callee : Callee} (ht : callee.tail ≠ []) :
    nameEnd (width front) callee = width (front ++ (callee.lead ++ callee.written)) := by
  rw [nameEnd, if_neg ht, Source.width_append front]

/-- Reading goes on at the offset of what is left. -/
theorem exists_used_of_read {stretch : Stretch}
    (h : read context compilers (width front) text = .ok stretch) :
    ∃ used, text = used ++ stretch.rest ∧ stretch.next = width (front ++ used) := by
  unfold read at h
  split at h
  · obtain rfl := Except.ok.inj h
    exact ⟨text, (List.append_nil _).symm, (Source.width_append _ _).symm⟩
  · rename_i callee hn
    have hs := Callee.next?_eq_some_iff.mp hn
    split at h
    · rename_i hb
      obtain rfl := Except.ok.inj h
      obtain ⟨-, member, hm, -⟩ := hs.exists_member hb
      refine ⟨callee.lead ++ callee.name ++ ['.'], ?_, (Source.width_append _ _).symm⟩
      simp [throughDot, ← hs.text, Callee.written, hm]
    · split at h
      · obtain rfl := Except.ok.inj h
        refine ⟨callee.lead ++ callee.written ++ callee.tail.take 1, ?_,
          (Source.width_append _ _).symm⟩
        rw [throughName, List.append_assoc, List.take_append_drop, hs.text]
      · unfold ofTarget at h
        split at h
        · cases h
        · rename_i list ho
          rw [nameEnd_eq (ne_nil_of_open? ho)] at ho h
          split at h
          · cases h
          · rename_i made rest hl
            obtain rfl := Except.ok.inj h
            exact hs.exists_used ho (NumericCall.rest_of_ofList hl)

end Stretch

namespace TextTerm

theorem nameEnd_eq {callee : Callee} (ht : callee.tail ≠ []) :
    nameEnd (width (front ++ callee.lead)) callee =
      width (front ++ (callee.lead ++ callee.written)) := by
  rw [nameEnd, if_neg ht, ← Source.width_append, List.append_assoc]

/-- Reading goes on at the offset of what is left. -/
theorem exists_used_of_read? {term : TextTerm}
    (h : read? context compilers (width front) text = some (.ok term)) :
    ∃ used, text = used ++ term.rest ∧ term.next = width (front ++ used) := by
  obtain ⟨gap, behind, rfl, ht, hb, -⟩ := exists_cut isTextMark text
  simp only [read?, ht, hb] at h
  split at h
  · cases h
  · rename_i inside
    rw [Option.some.injEq, literal] at h
    split at h
    · cases h
    · rename_i body rest hs
      obtain rfl := Except.ok.inj h
      refine ⟨gap ++ '"' :: body ++ ['"'], ?_, ?_⟩
      · simp [Source.splitQuoted_eq hs]
      · have hquote : '"'.utf8Size = 1 := rfl
        simp only [Source.width_append, Source.width_cons, Source.width_nil, hquote]
        omega
  · obtain ⟨callee, hn, ho⟩ := Option.map_eq_some_iff.mp h
    have hs := Callee.next?_eq_some_iff.mp hn
    rw [← Source.width_append] at ho
    unfold ofCallee at ho
    split at ho
    · cases ho
    · rename_i list hlist
      rw [nameEnd_eq (ne_nil_of_open? hlist)] at hlist
      split at ho
      · cases ho
      · rename_i rest hr
        split at ho
        · cases ho
        · obtain rfl := Except.ok.inj ho
          exact hs.exists_used hlist hr

end TextTerm
end Reading
end SceneFormula
