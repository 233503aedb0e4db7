import SceneFormula.Proofs.Extending

namespace SceneFormula
open Arithmetic (isReserved)
open Source (isBroken separators)

namespace Callee
variable {text : List Char} {callee : Callee}

def precede (callee : Callee) (front : List Char) : Callee :=
  { callee with lead := front ++ callee.lead }

theorem Splits.precede (hs : callee.Splits text) {front : List Char}
    (hf : ∀ c ∈ front, isMark c = false)
    (hseam : callee.lead = [] → ∀ c ∈ front.getLast?, c ∈ separators) :
    (callee.precede front).Splits (front ++ text) := by
  refine ⟨?_, fun c hc => ?_, hs.plain, fun c hc => ?_, hs.bare, hs.member⟩
  · rw [← hs.text]
    simp [Callee.precede, written]
  · rw [Callee.precede, List.append_assoc] at hc
    rcases List.mem_append.mp hc with hc | hc
    · exact hf c hc
    · exact hs.unmarked c hc
  · by_cases hl : callee.lead = []
    · rw [Callee.precede, hl, List.append_nil] at hc
      exact hseam hl c hc
    · rw [Callee.precede, List.getLast?_append_of_ne_nil _ hl] at hc
      exact hs.seam c hc

end Callee

/-- A text that no name runs into: it is empty or starts with a space, a closing parenthesis or a
comma. -/
def Bounded (text : List Char) : Prop :=
  ∀ c ∈ text.head?, c = ' ' ∨ c = ')' ∨ c = ','

theorem Bounded.lead_ne_nil {text : List Char} (h : Bounded text) {callee : Callee}
    (hs : callee.Splits text) : callee.lead ≠ [] := by
  intro hl
  have htext := hs.text
  rw [hl, List.nil_append, Callee.written] at htext
  cases hn : callee.name with
  | cons c name =>
    have hc : c ∈ separators := by
      rcases h c (by rw [← htext, hn]; rfl) with rfl | rfl | rfl <;> decide
    exact hs.plain c (by rw [hn]; exact List.mem_cons_self) hc
  | nil =>
    rw [hn, List.nil_append] at htext
    cases hm : callee.member with
    | none =>
      obtain ⟨after, ha⟩ := hs.bare hm
      rw [hm, ha] at htext
      have := h '(' (by rw [← htext]; rfl)
      simp at this
    | some member =>
      rw [hm] at htext
      have := h '.' (by rw [← htext]; rfl)
      simp at this

namespace Rewrites
variable {world : World} {compilers : Compilers} {front text : List Char} {items : List Item}

/-- A text without marks is kept in front of a text, if a separator stands between them. -/
theorem preceded (hf : ∀ c ∈ front, Callee.isMark c = false)
    (hseam : (∀ c ∈ front.getLast?, c ∈ separators) ∨ Bounded text)
    (h : Rewrites world compilers text items) :
    Rewrites world compilers (front ++ text) (Item.chars front ++ items) := by
  have hsplits {callee : Callee} (hn : Callee.next? text = some callee) :
      Callee.next? (front ++ text) = some (callee.precede front) := by
    have hs := Callee.next?_eq_some_iff.mp hn
    refine Callee.next?_eq_some_iff.mpr (hs.precede hf fun hl => ?_)
    rcases hseam with hseam | hbounded
    · exact hseam
    · exact absurd hl (hbounded.lead_ne_nil hs)
  have hchars (more : List Char) :
      Item.chars front ++ Item.chars more = Item.chars (front ++ more) :=
    List.map_append.symm
  cases h with
  | last hn =>
    rw [hchars]
    refine .last (Callee.next?_eq_none_iff.mpr fun c hc => ?_)
    rcases List.mem_append.mp hc with hc | hc
    · exact hf c hc
    · exact Callee.next?_eq_none_iff.mp hn c hc
  | dot hn hb hr =>
    have hstep := Rewrites.dot (hsplits hn) hb hr
    rw [← List.append_assoc, hchars, ← List.append_assoc, ← List.append_assoc]
    exact hstep
  | name hn hb ht hr =>
    have hstep := Rewrites.name (hsplits hn) hb ht hr
    rw [← List.append_assoc, hchars, ← List.append_assoc, ← List.append_assoc]
    exact hstep
  | call hn hb ht ho hl hc hr =>
    have hstep := Rewrites.call (hsplits hn) hb ht ho hl hc hr
    rw [← List.append_assoc, hchars]
    exact hstep

/-- What is rewritten behind a kept text does not hang on that text. -/
theorem of_preceded (hf : ∀ c ∈ front, Callee.isMark c = false)
    (hseam : ∀ c ∈ front.getLast?, c ∈ separators)
    (h : Rewrites world compilers (front ++ text) items) :
    ∃ more, items = Item.chars front ++ more ∧ Rewrites world compilers text more := by
  have hchars (more : List Char) :
      Item.chars (front ++ more) = Item.chars front ++ Item.chars more :=
    List.map_append
  cases hn : Callee.next? text with
  | none =>
    have hnone : Callee.next? (front ++ text) = none := by
      refine Callee.next?_eq_none_iff.mpr fun c hc => ?_
      rcases List.mem_append.mp hc with hc | hc
      · exact hf c hc
      · exact Callee.next?_eq_none_iff.mp hn c hc
    cases h with
    | last _ => exact ⟨_, hchars text, .last hn⟩
    | dot ho | name ho | call ho =>
      rw [hnone] at ho
      cases ho
  | some callee =>
    have hsome := Callee.next?_eq_some_iff.mpr
      ((Callee.next?_eq_some_iff.mp hn).precede hf fun _ => hseam)
    cases h with
    | last ho =>
      rw [hsome] at ho
      cases ho
    | dot ho hb hr =>
      obtain rfl := Option.some.inj (hsome.symm.trans ho)
      refine ⟨_, ?_, .dot hn hb hr⟩
      rw [← List.append_assoc, ← hchars, Callee.precede]
      simp
    | name ho hb ht hr =>
      obtain rfl := Option.some.inj (hsome.symm.trans ho)
      refine ⟨_, ?_, .name hn hb ht hr⟩
      rw [← List.append_assoc, ← hchars, Callee.precede]
      simp [Callee.written]
    | call ho hb ht hopen hl hc hr =>
      obtain rfl := Option.some.inj (hsome.symm.trans ho)
      refine ⟨_, ?_, .call hn hb ht hopen hl hc hr⟩
      rw [← List.append_assoc, ← hchars]
      rfl

private theorem chars_of_written {copied rest : List Char}
    (h : Item.written (Item.chars copied ++ Item.chars rest) = text) :
    Item.chars copied ++ Item.chars rest = Item.chars text := by
  rw [Item.written_append, Item.written_chars, Item.written_chars] at h
  rw [← h]
  exact List.map_append.symm

private theorem mem_of_written {copied rest : List Char} {c : Char}
    (h : Item.written (Item.chars copied ++ items) = text)
    (hr : Rewrites world compilers rest items) (hm : c ∈ rest) : c ∈ text := by
  rw [Item.written_append, hr.written] at h
  rw [← h]
  exact List.mem_append_right _ hm

/-- A text without an opening parenthesis is kept. -/
theorem eq_chars (h : Rewrites world compilers text items) (hp : '(' ∉ text) :
    items = Item.chars text := by
  induction h with
  | last => rfl
  | dot hn hb hr ih =>
    have hw := (Rewrites.dot hn hb hr).written
    obtain rfl := ih fun hm => hp (mem_of_written hw hr hm)
    exact chars_of_written hw
  | name hn hb ht hr ih =>
    have hw := (Rewrites.name hn hb ht hr).written
    obtain rfl := ih fun hm => hp (mem_of_written hw hr hm)
    exact chars_of_written hw
  | call hn hb ht ho hl hc hr ih =>
    have hs := Callee.next?_eq_some_iff.mp hn
    refine absurd ?_ hp
    rw [← hs.text, ho]
    simp

end Rewrites
end SceneFormula
