import Mathlib.Data.List.Basic
import SceneFormula.Proofs.Seams

/-! Texts that go on behind a text. What was rewritten stays rewritten as it was, since a call and a
name that ends do not hang on what follows; only a name that runs to the end of the text does. -/
namespace SceneFormula
open Arithmetic (isReserved)
open Source (ArgumentList isBroken separators)

namespace Callee
variable {text : List Char} {callee : Callee}

def extend (callee : Callee) (more : List Char) : Callee :=
  { callee with tail := callee.tail ++ more }

theorem Splits.extend (hs : callee.Splits text) (ht : callee.tail ≠ []) (more : List Char) :
    (callee.extend more).Splits (text ++ more) := by
  refine ⟨?_, hs.unmarked, hs.plain, hs.seam, fun hm => ?_, fun member hm => ?_⟩
  · rw [← hs.text]
    exact (List.append_assoc _ _ _).symm
  · obtain ⟨after, ha⟩ := hs.bare hm
    exact ⟨after ++ more, by rw [Callee.extend, ha, List.cons_append]⟩
  · obtain ⟨hends, hstop⟩ := hs.member member hm
    refine ⟨hends, fun c hc => hstop c ?_⟩
    obtain ⟨d, tail, htail⟩ := List.exists_cons_of_ne_nil ht
    rw [Callee.extend, htail] at hc
    rw [htail]
    exact hc

theorem functionName_extend (ht : callee.tail ≠ []) (more : List Char) :
    Stretch.functionName (callee.extend more) = Stretch.functionName callee := by
  have hne : callee.tail ++ more ≠ [] := fun h => ht (List.append_eq_nil_iff.mp h).1
  rw [Stretch.functionName, Stretch.functionName, if_neg ht, extend, if_neg hne]
  rfl

theorem target?_extend (world : World) (ht : callee.tail ≠ []) (more : List Char) :
    Stretch.target? world (callee.extend more) = Stretch.target? world callee := by
  rw [Stretch.target?, functionName_extend ht]
  rfl

/-- A name behind a separator, with a parenthesis behind it. -/
theorem splits_open (lead name : List Char) (hl : ∀ c ∈ lead ++ name, isMark c = false)
    (hn : ∀ c ∈ name, c ∉ separators) (hs : ∀ c ∈ lead.getLast?, c ∈ separators)
    (rest : List Char) :
    Splits (lead ++ name ++ '(' :: rest) ⟨lead, name, none, '(' :: rest⟩ where
  text := by rw [written]; simp
  unmarked := hl
  plain := hn
  seam := hs
  bare := fun _ => ⟨rest, rfl⟩
  member := nofun

theorem functionName_open (lead name rest : List Char) :
    Stretch.functionName ⟨lead, name, none, '(' :: rest⟩ = name := rfl

end Callee

namespace Rewrites
variable {world : World} {compilers : Compilers} {text rest : List Char} {items more : List Item}

/-- A text that goes on is rewritten as before and then on, if that holds where it may end: behind
text without a mark, and behind a name that runs to its end. -/
theorem append (h : Rewrites world compilers text items)
    (hplain : ∀ text, (∀ c ∈ text, Callee.isMark c = false) →
      Rewrites world compilers (text ++ rest) (Item.chars text ++ more))
    (hopen : ∀ text callee, callee.Splits text → callee.tail = [] →
      Stretch.target? world callee = none →
      Rewrites world compilers (text ++ rest) (Item.chars text ++ more)) :
    Rewrites world compilers (text ++ rest) (items ++ more) := by
  -- Each step is taken again with the longer callee, unless its name runs to the end of the text.
  induction h with
  | last hn => exact hplain _ (Callee.next?_eq_none_iff.mp hn)
  | @dot text callee items hn hb hr ih =>
    have hs := Callee.next?_eq_some_iff.mp hn
    have ht : callee.tail ≠ [] := by
      intro ht
      rw [Stretch.functionName, if_pos ht] at hb
      cases hb
    have hb' : isBroken separators (Stretch.functionName (callee.extend rest)) = true := by
      rw [Callee.functionName_extend ht]
      exact hb
    rw [List.append_assoc] at ih ⊢
    have hstep := Rewrites.dot (Callee.next?_eq_some_iff.mpr (hs.extend ht rest)) hb' ih
    exact hstep
  | @name text callee items hn hb htarget hr ih =>
    have hs := Callee.next?_eq_some_iff.mp hn
    by_cases ht : callee.tail = []
    · rw [ht] at hr
      obtain rfl := of_nil hr
      have hw := hs.text
      rw [ht, List.append_nil] at hw
      rw [ht, List.take_nil, List.append_nil, List.append_nil, hw]
      exact hopen text callee hs ht htarget
    · obtain ⟨c, tail, htail⟩ := List.exists_cons_of_ne_nil ht
      rw [htail] at ih ⊢
      rw [List.append_assoc]
      have hb' : isBroken separators (Stretch.functionName (callee.extend rest)) = false := by
        rw [Callee.functionName_extend ht]
        exact hb
      have ht' : Stretch.target? world (callee.extend rest) = none := by
        rw [Callee.target?_extend world ht]
        exact htarget
      have hr' : Rewrites world compilers ((callee.extend rest).tail.drop 1) (items ++ more) := by
        rw [Callee.extend, htail]
        exact ih
      have hstep := Rewrites.name (Callee.next?_eq_some_iff.mpr (hs.extend ht rest)) hb' ht' hr'
      rw [Callee.extend, htail] at hstep
      exact hstep
  | @call text callee target spaces inside behind made items hn hb htarget ho hl hc hr ih =>
    have hs := Callee.next?_eq_some_iff.mp hn
    have ht : callee.tail ≠ [] := by simp [ho]
    have hread := ArgumentList.read_append hl rest
    have hassoc : inside ++ ')' :: behind ++ rest = inside ++ ')' :: (behind ++ rest) := by simp
    rw [hassoc] at hread
    have hb' : isBroken separators (Stretch.functionName (callee.extend rest)) = false := by
      rw [Callee.functionName_extend ht]
      exact hb
    have ht' := (Callee.target?_extend world ht rest).trans htarget
    have ho' : (callee.extend rest).tail =
        List.replicate spaces ' ' ++ '(' :: (inside ++ ')' :: (behind ++ rest)) := by
      rw [Callee.extend, ho]
      simp
    have hl' : (ArgumentList.read 0 (inside ++ ')' :: (behind ++ rest))).rest =
        some (behind ++ rest) := by
      rw [hread, ArgumentList.extend, hl]
      rfl
    have hc' : Calls world compilers target (ArgumentList.trimmed
        (ArgumentList.read 0 (inside ++ ')' :: (behind ++ rest))).texts) made := by
      rw [hread]
      exact hc
    have hstep := Rewrites.call (Callee.next?_eq_some_iff.mpr (hs.extend ht rest)) hb' ht' ho' hl'
      hc' ih
    rw [List.append_assoc]
    exact hstep

/-- A name with a parenthesis is kept, if it means no function. -/
theorem openName (lead name : List Char) (hl : ∀ c ∈ lead ++ name, Callee.isMark c = false)
    (hn : ∀ c ∈ name, c ∉ separators) (hs : ∀ c ∈ lead.getLast?, c ∈ separators)
    (ht : Stretch.target? world ⟨lead, name, none, '(' :: rest⟩ = none)
    (h : Rewrites world compilers rest items) :
    Rewrites world compilers (lead ++ name ++ '(' :: rest)
      (Item.chars (lead ++ name ++ ['(']) ++ items) := by
  have hnext := Callee.next?_eq_some_iff.mpr (Callee.splits_open lead name hl hn hs rest)
  have hstep := Rewrites.name hnext (isBroken_eq_false hn) ht h
  simpa [Callee.written] using hstep

theorem target?_empty (hempty : world.function? .number .free "" = none)
    (lead : List Char) : Stretch.target? world ⟨lead, [], none, '(' :: rest⟩ = none := by
  have hf : world.freeTarget? .number "" = none := by
    rw [World.freeTarget?, hempty]
    rfl
  rw [Stretch.target?]
  split
  · rfl
  · exact hf

/-- A parenthesis behind a separator is kept, if no function without a name is known. -/
theorem openParen (hempty : world.function? .number .free "" = none)
    (lead : List Char) (hl : ∀ c ∈ lead, Callee.isMark c = false)
    (hs : ∀ c ∈ lead.getLast?, c ∈ separators) (h : Rewrites world compilers rest items) :
    Rewrites world compilers (lead ++ '(' :: rest) (Item.chars (lead ++ ['(']) ++ items) := by
  have hopen := openName lead [] (by simpa using hl) nofun hs
    (target?_empty hempty lead) h
  simpa using hopen

/-- What is rewritten behind such a parenthesis does not hang on it. -/
theorem of_openParen (hempty : world.function? .number .free "" = none)
    {lead : List Char} (hl : ∀ c ∈ lead, Callee.isMark c = false)
    (hs : ∀ c ∈ lead.getLast?, c ∈ separators)
    (h : Rewrites world compilers (lead ++ '(' :: rest) items) :
    ∃ more, items = Item.chars (lead ++ ['(']) ++ more ∧ Rewrites world compilers rest more := by
  have hsplits := Callee.splits_open lead [] (by simpa using hl) nofun hs rest
  rw [List.append_nil] at hsplits
  have hnext := Callee.next?_eq_some_iff.mpr hsplits
  cases h with
  | last hn =>
    rw [hnext] at hn
    cases hn
  | dot hn hb hr =>
    obtain rfl := Option.some.inj (hnext.symm.trans hn)
    cases hb
  | name hn hb ht hr =>
    obtain rfl := Option.some.inj (hnext.symm.trans hn)
    exact ⟨_, by simp [Callee.written], hr⟩
  | call hn hb ht ho hc hm hr =>
    obtain rfl := Option.some.inj (hnext.symm.trans hn)
    rw [target?_empty hempty] at ht
    cases ht

/-- A closing parenthesis at the end of a text is kept. -/
theorem closeParen (h : Rewrites world compilers text items) :
    Rewrites world compilers (text ++ [')']) (items ++ [.char ')']) := by
  refine h.append (fun text ht => ?_) fun text callee hs ht htarget => ?_
  · have hn : ∀ c ∈ text ++ [')'], Callee.isMark c = false := by
      intro c hc
      rcases List.mem_append.mp hc with hc | hc
      · exact ht c hc
      · obtain rfl : c = ')' := by simpa using hc
        rfl
    have hlast : Rewrites world compilers (text ++ [')']) (Item.chars (text ++ [')'])) :=
      .last (Callee.next?_eq_none_iff.mpr hn)
    rwa [Item.chars, List.map_append] at hlast
  · obtain ⟨lead, name, member, tail⟩ := callee
    obtain rfl : tail = [] := ht
    cases member with
    | none =>
      obtain ⟨after, ha⟩ := hs.bare rfl
      cases ha
    | some member =>
      have hs' : Callee.Splits (text ++ [')']) ⟨lead, name, some (member ++ [')']), []⟩ := by
        refine ⟨?_, hs.unmarked, hs.plain, hs.seam, fun hm => ?_, fun other ho => ?_⟩
        · rw [← hs.text]
          simp [Callee.written]
        · cases hm
        · obtain rfl := Option.some.inj ho
          refine ⟨fun c hc => ?_, fun c hc => ?_⟩
          · rcases List.mem_append.mp hc with hc | hc
            · exact (hs.member member rfl).1 c hc
            · obtain rfl : c = ')' := by simpa using hc
              rfl
          · cases hc
      have hnil : Rewrites world compilers [] [] := .last rfl
      have hstep := Rewrites.name (Callee.next?_eq_some_iff.mpr hs') rfl htarget hnil
      have hitems : Item.chars text ++ [.char ')'] =
          Item.chars (lead ++ name ++ '.' :: (member ++ [')'])) := by
        rw [← hs.text]
        simp [Callee.written, Item.chars]
      rw [hitems]
      simpa [Callee.written, Item.chars] using hstep

/-- A name behind a dot goes on over the joint up to its parenthesis, and is then no name. -/
private theorem of_dot {joint : List Char} (hends : ∀ c ∈ joint, Callee.endsMember c = false)
    (hfirst : ∃ c ∈ joint.dropLast, c ∈ separators) {callee : Callee} (hs : callee.Splits text)
    (ht : callee.tail = []) {member : List Char} (hm : callee.member = some member)
    (hr : Rewrites world compilers (member ++ (joint ++ '(' :: rest))
      (Item.chars member ++ (Item.chars (joint ++ ['(']) ++ items))) :
    Rewrites world compilers (text ++ (joint ++ '(' :: rest))
      (Item.chars text ++ (Item.chars (joint ++ ['(']) ++ items)) := by
  obtain ⟨lead, name, written, tail⟩ := callee
  obtain rfl : tail = [] := ht
  obtain rfl : written = some member := hm
  have hs' : Callee.Splits (text ++ (joint ++ '(' :: rest))
      ⟨lead, name, some (member ++ joint), '(' :: rest⟩ := by
    refine ⟨?_, hs.unmarked, hs.plain, hs.seam, nofun, fun other ho => ?_⟩
    · rw [← hs.text]
      simp [Callee.written]
    · obtain rfl := Option.some.inj ho
      refine ⟨fun c hc => ?_, fun c hc => ?_⟩
      · rcases List.mem_append.mp hc with hc | hc
        · exact (hs.member member rfl).1 c hc
        · exact hends c hc
      · obtain rfl : '(' = c := by simpa using hc
        rfl
  have hb : isBroken separators (Stretch.functionName
      ⟨lead, name, some (member ++ joint), '(' :: rest⟩) = true := by
    obtain ⟨c, hc, hsep⟩ := hfirst
    have hne : joint ≠ [] := by
      rintro rfl
      cases hc
    refine isBroken_eq_true_iff.mpr ⟨c, ?_, hsep⟩
    change c ∈ (member ++ joint).dropLast
    rw [List.dropLast_append_of_ne_nil hne]
    exact List.mem_append_right _ hc
  have hr' : Rewrites world compilers (member ++ joint ++ '(' :: rest)
      (Item.chars member ++ (Item.chars (joint ++ ['(']) ++ items)) := by
    rwa [List.append_assoc]
  have hstep := Rewrites.dot (Callee.next?_eq_some_iff.mpr hs') hb hr'
  have hitems : Item.chars text = Item.chars (lead ++ name ++ ['.']) ++ Item.chars member := by
    rw [← hs.text]
    simp [Callee.written, Item.chars]
  rw [hitems, List.append_assoc]
  exact hstep

section Joint
variable {joint : List Char} (hempty : world.function? .number .free "" = none)
  (hmark : ∀ c ∈ joint, Callee.isMark c = false) (hlast : ∀ c ∈ joint.getLast?, c ∈ separators)
  (h : Rewrites world compilers rest items)
include hempty hmark hlast h

private theorem of_plain (hne : joint ≠ []) (text : List Char)
    (ht : ∀ c ∈ text, Callee.isMark c = false) :
    Rewrites world compilers (text ++ (joint ++ '(' :: rest))
      (Item.chars text ++ (Item.chars (joint ++ ['(']) ++ items)) := by
  have hplain : ∀ c ∈ text ++ joint, Callee.isMark c = false := by
    intro c hc
    rcases List.mem_append.mp hc with hc | hc
    · exact ht c hc
    · exact hmark c hc
  have hseam : ∀ c ∈ (text ++ joint).getLast?, c ∈ separators := by
    intro c hc
    rw [List.getLast?_append_of_ne_nil _ hne] at hc
    exact hlast c hc
  simpa [Item.chars] using openParen hempty (text ++ joint) hplain hseam h

variable (hends : ∀ c ∈ joint, Callee.endsMember c = false)
  (hfirst : ∃ c ∈ joint.dropLast, c ∈ separators)
include hends hfirst

private theorem of_member (text : List Char) (ht : ∀ c ∈ text, Callee.endsMember c = false) :
    Rewrites world compilers (text ++ (joint ++ '(' :: rest))
      (Item.chars text ++ (Item.chars (joint ++ ['(']) ++ items)) := by
  have hne : joint ≠ [] := by
    rintro rfl
    obtain ⟨c, hc, _⟩ := hfirst
    cases hc
  cases hn : Callee.next? text with
  | none => exact of_plain hempty hmark hlast h hne text (Callee.next?_eq_none_iff.mp hn)
  | some callee =>
    have hs := Callee.next?_eq_some_iff.mp hn
    have hin : ∀ c ∈ callee.tail, c ∈ text := by
      intro c hc
      rw [← hs.text]
      exact List.mem_append_right _ hc
    cases hm : callee.member with
    | none =>
      obtain ⟨after, ha⟩ := hs.bare hm
      have := ht '(' (hin '(' (by simp [ha]))
      cases this
    | some member =>
      have htail : callee.tail = [] := by
        cases hc : callee.tail with
        | nil => rfl
        | cons c tail =>
          have hend := (hs.member member hm).2 c (by simp [hc])
          rw [ht c (hin c (by simp [hc]))] at hend
          cases hend
      have hshort : member.length < text.length := by
        have hl := congrArg List.length hs.text
        rw [Callee.written, hm, Option.map_some, Option.getD_some] at hl
        simp only [List.length_append, List.length_cons] at hl
        omega
      exact of_dot hends hfirst hs htail hm
        (of_member member (hs.member member hm).1)
termination_by text.length

/-- A text goes on over a joint up to a parenthesis. The joint starts and ends with a separator. -/
theorem joined {first : List Char} {kept : List Item} (hf : Rewrites world compilers first kept) :
    Rewrites world compilers (first ++ (joint ++ '(' :: rest))
      (kept ++ (Item.chars (joint ++ ['(']) ++ items)) := by
  have hne : joint ≠ [] := by
    rintro rfl
    obtain ⟨c, hc, _⟩ := hfirst
    cases hc
  refine hf.append (of_plain hempty hmark hlast h hne) fun text callee hs ht _ => ?_
  cases hm : callee.member with
  | none =>
    obtain ⟨after, ha⟩ := hs.bare hm
    rw [ht] at ha
    cases ha
  | some member =>
    exact of_dot hends hfirst hs ht hm
      (of_member hempty hmark hlast h hends hfirst member (hs.member member hm).1)

end Joint
end Rewrites
end SceneFormula
