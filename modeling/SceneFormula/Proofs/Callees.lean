import Mathlib.Data.List.TakeWhile
import SceneFormula.Call.Callee

namespace SceneFormula
open Source (cutName separators)

/-- A text before a name is given back by the cut, if it is empty or ends in a separator. -/
theorem cutName_eq {lead name : List Char} (hn : ∀ c ∈ name, c ∉ separators)
    (hl : ∀ c ∈ lead.getLast?, c ∈ separators) :
    cutName separators (lead ++ name) = (lead, name) := by
  have hname : cutName separators name = ([], name) := by
    clear hl
    induction name with
    | nil => rfl
    | cons c name ih =>
      rw [cutName, ih fun d hd => hn d (List.mem_cons_of_mem _ hd)]
      simp [hn c List.mem_cons_self]
  induction lead with
  | nil => exact hname
  | cons c lead ih =>
    rw [List.cons_append, cutName]
    cases lead with
    | nil =>
      rw [List.nil_append, hname]
      simp [hl c rfl]
    | cons d lead => rw [ih (by simpa [List.getLast?_cons_cons] using hl)]

/-- A text is cut before its first character of a kind. -/
theorem exists_cut (p : Char → Bool) (text : List Char) :
    ∃ reach tail, text = reach ++ tail ∧ text.takeWhile (!p ·) = reach ∧
      text.dropWhile (!p ·) = tail ∧ (∀ c ∈ reach, p c = false) ∧
      ∀ c ∈ tail.head?, p c = true := by
  refine ⟨_, _, List.takeWhile_append_dropWhile.symm, rfl, rfl, fun c hc => ?_, fun c hc => ?_⟩
  · simpa using List.mem_takeWhile_imp hc
  · have hnot := List.head?_dropWhile_not (!p ·) text
    rw [hc] at hnot
    simpa using hnot

namespace Callee

structure Splits (text : List Char) (callee : Callee) : Prop where
  text : callee.lead ++ callee.written ++ callee.tail = text
  unmarked : ∀ c ∈ callee.lead ++ callee.name, isMark c = false
  plain : ∀ c ∈ callee.name, c ∉ separators
  seam : ∀ c ∈ callee.lead.getLast?, c ∈ separators
  bare : callee.member = none → ∃ after, callee.tail = '(' :: after
  member : ∀ member, callee.member = some member →
    (∀ c ∈ member, endsMember c = false) ∧ ∀ c ∈ callee.tail.head?, endsMember c = true

theorem next?_eq_none_iff {text : List Char} :
    next? text = none ↔ ∀ c ∈ text, isMark c = false := by
  unfold next?
  constructor
  · intro h
    split at h
    · rename_i hd
      simpa using List.dropWhile_eq_nil_iff.mp hd
    · split at h <;> cases h
  · intro h
    rw [List.dropWhile_eq_nil_iff.mpr fun c hc => by simp [h c hc]]

theorem next?_eq_some_iff {text : List Char} {callee : Callee} :
    next? text = some callee ↔ callee.Splits text := by
  constructor
  · intro h
    have htext := next?_append h
    obtain ⟨_, _, -, rfl, rfl, hwhile, hmarks⟩ := exists_cut isMark text
    have happend := Source.cutName_append separators (text.takeWhile (!isMark ·))
    have hplain : ∀ c ∈ (cutName separators (text.takeWhile (!isMark ·))).2, c ∉ separators :=
      fun c hc => Source.not_separator_of_mem_cutName hc
    have hseam : ∀ c ∈ (cutName separators (text.takeWhile (!isMark ·))).1.getLast?,
        c ∈ separators := fun c hc => Source.getLast_cutName_mem c hc
    rw [← happend] at hwhile
    unfold next? at h
    split at h
    · cases h
    · rename_i mark after hd
      have hmark : isMark mark = true := hmarks mark (by rw [hd]; rfl)
      split at h
      · obtain rfl := Option.some.inj h
        refine ⟨htext, hwhile, hplain, hseam, (fun hb => by cases hb), fun member hm => ?_⟩
        obtain rfl := Option.some.inj hm
        obtain ⟨_, _, -, rfl, rfl, hmember, hstop⟩ := exists_cut endsMember after
        exact ⟨hmember, hstop⟩
      · rename_i hdot
        obtain rfl := Option.some.inj h
        refine ⟨htext, hwhile, hplain, hseam, fun _ => ⟨after, ?_⟩, fun member hm => by cases hm⟩
        simp only [isMark, hdot, Bool.or_eq_true, beq_iff_eq, false_or] at hmark
        rw [hmark]
  · rintro ⟨rfl, hunmarked, hplain, hseam, hbare, hmember⟩
    obtain ⟨lead, name, member, tail⟩ := callee
    have hcut := cutName_eq hplain hseam
    have htake (mark : Char) (after : List Char) (hm : isMark mark = true) :
        (lead ++ name ++ mark :: after).takeWhile (!isMark ·) = lead ++ name ∧
          (lead ++ name ++ mark :: after).dropWhile (!isMark ·) = mark :: after := by
      have hall : ∀ c ∈ lead ++ name, (!isMark c) = true := fun c hc => by simp [hunmarked c hc]
      rw [List.takeWhile_append_of_pos hall, List.dropWhile_append_of_pos hall]
      simp [hm]
    cases member with
    | none =>
      obtain ⟨after, rfl⟩ := hbare rfl
      obtain ⟨ht, hd⟩ := htake '(' after rfl
      simp only [written, Option.map_none, Option.getD_none, List.append_nil]
      simp only [next?, ht, hd, hcut]
      rfl
    | some member =>
      obtain ⟨hm, hstop⟩ := hmember member rfl
      obtain ⟨ht, hd⟩ := htake '.' (member ++ tail) rfl
      simp only [written, Option.map_some, Option.getD_some, ← List.append_assoc]
      rw [List.append_assoc _ ('.' :: member), List.cons_append]
      have hall : ∀ c ∈ member, (!endsMember c) = true := fun c hc => by simp [hm c hc]
      have htail : tail.takeWhile (!endsMember ·) = [] ∧ tail.dropWhile (!endsMember ·) = tail := by
        cases tail with
        | nil => exact ⟨rfl, rfl⟩
        | cons c tail => simp [hstop c rfl]
      simp only [next?, ht, hd, hcut, if_true, List.takeWhile_append_of_pos hall,
        List.dropWhile_append_of_pos hall, htail.1, htail.2, List.append_nil]

end Callee
end SceneFormula
