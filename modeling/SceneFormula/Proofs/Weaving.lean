import SceneFormula.Proofs.Seams
import SceneFormula.Proofs.VariableNames
import SceneFormula.Proofs.Variables

/-! The tokens of arithmetic in which variables stand for calls. A variable is read with the
characters of a name that follow its call, and what is kept is read apart from it. -/
namespace SceneFormula
open Arithmetic (Lexes Apart TokenKind isNamePart isNameStart isReserved joins)
open Source (separators)

theorem not_isNamePart_of_separator {c : Char} (h : c ∈ separators) : isNamePart c = false := by
  simp only [separators, List.mem_cons, List.not_mem_nil, or_false] at h
  rcases h with rfl | rfl | rfl | rfl | rfl | rfl | rfl | rfl | rfl | rfl | rfl | rfl | rfl | rfl |
    rfl | rfl <;> rfl

theorem joins_separator {c d : Char} (h : c ∈ separators) (hd : isNamePart d = true) :
    joins c d = false := by
  have hn := not_isNamePart_of_separator h
  have hdot : c ≠ '.' := by
    rintro rfl
    exact absurd h (by decide)
  have he : d ≠ '=' ∧ d ≠ '&' ∧ d ≠ '|' := by
    refine ⟨?_, ?_, ?_⟩ <;> rintro rfl <;> exact absurd hd (by decide)
  simp [joins, hn, hdot, he.1, he.2.1, he.2.2]

def Fresh (total : Nat) (text : List Char) : Prop :=
  ∀ kinds, Lexes text kinds → ∀ name, .name name ∈ kinds → name ∉ variableNames total

def SeamedGaps (gaps : List (List Char)) : Prop :=
  ∀ gap ∈ gaps.dropLast, ∀ c ∈ gap.getLast?, c ∈ separators

theorem SeamedGaps.tail {gap : List Char} {gaps : List (List Char)} (h : SeamedGaps (gap :: gaps)) :
    SeamedGaps gaps := by
  intro other ho
  cases gaps with
  | nil => cases ho
  | cons next gaps =>
    rw [SeamedGaps, List.dropLast_cons_cons] at h
    exact h other (List.mem_cons_of_mem _ ho)

theorem SeamedGaps.head {gap next : List Char} {gaps : List (List Char)}
    (h : SeamedGaps (gap :: next :: gaps)) : ∀ c ∈ gap.getLast?, c ∈ separators :=
  h gap (by rw [List.dropLast_cons_cons]; exact List.mem_cons_self)

theorem Item.Seamed.gaps {previous : Option Char} {items : List Item} (h : Seamed previous items) :
    ((Item.gaps items).2 ≠ [] → ∀ c ∈ (Item.gaps items).1.getLast?.or previous, c ∈ separators) ∧
      SeamedGaps (Item.gaps items).2 := by
  induction items generalizing previous with
  | nil => exact ⟨fun hn => absurd rfl hn, fun gap hg => by cases hg⟩
  | cons item items ih =>
    cases item with
    | char c =>
      obtain ⟨hfirst, hbehind⟩ := ih h
      refine ⟨fun hn d hd => hfirst hn d ?_, hbehind⟩
      rw [Item.gaps, List.getLast?_cons] at hd
      cases hl : (Item.gaps items).1.getLast? with
      | none => simpa [hl] using hd
      | some last => simpa [hl] using hd
    | call site made =>
      obtain ⟨hfirst, hbehind⟩ := ih h.2
      refine ⟨fun _ => h.1, fun gap hg => ?_⟩
      rw [Item.gaps] at hg
      cases hb : (Item.gaps items).2 with
      | nil =>
        rw [hb] at hg
        cases hg
      | cons next gaps =>
        rw [hb, List.dropLast_cons_cons] at hg
        rcases List.mem_cons.mp hg with rfl | hg
        · intro c hc
          exact hfirst (by simp [hb]) c (by simpa using hc)
        · exact hbehind gap (hb ▸ hg)

theorem Item.Seamed.seamedGaps {items : List Item} (h : Seamed none items) :
    SeamedGaps ((Item.gaps items).1 :: (Item.gaps items).2) := by
  obtain ⟨hfirst, hbehind⟩ := h.gaps
  intro gap hg
  cases hb : (Item.gaps items).2 with
  | nil =>
    rw [hb] at hg
    cases hg
  | cons next gaps =>
    rw [hb, List.dropLast_cons_cons] at hg
    rcases List.mem_cons.mp hg with rfl | hg
    · intro c hc
      exact hfirst (by simp [hb]) c (by simpa using hc)
    · exact hbehind gap (hb ▸ hg)

/-- The tokens of woven texts, gap by gap: a name made of the variable and of what touches it, and
then the tokens of the rest of the gap. Two variables never touch. -/
inductive Weaves : Nat → List (List Char) → List TokenKind → Prop
  | none {count : Nat} : Weaves count [] []
  | more {count : Nat} {gap : List Char} {gaps : List (List Char)} {own kinds : List TokenKind}
    (hn : gap = [] → gaps = []) (hl : Lexes (gap.dropWhile isNamePart) own)
    (hw : Weaves (count + 1) gaps kinds) :
    Weaves count (gap :: gaps) (.name (String.ofList
      ((variableName (count + 1)).toList ++ gap.takeWhile isNamePart)) :: (own ++ kinds))

theorem weave_eq_cons (count : Nat) (gap : List Char) (gaps : List (List Char)) :
    ∃ digits, weave count (gap :: gaps) = 'x' :: (digits ++ gap ++ weave (count + 1) gaps) := by
  exact ⟨Nat.toDigits 10 (count + 1), by rw [weave, toList_variableName]; rfl⟩

theorem apart_weave {text : List Char} {count : Nat} {gaps : List (List Char)}
    (h : ∀ gap more, gaps = gap :: more → ∀ c ∈ text.getLast?, c ∈ separators) :
    Apart text (weave count gaps) := by
  intro a ha b hb
  cases gaps with
  | nil => cases hb
  | cons gap gaps =>
    obtain ⟨digits, hw⟩ := weave_eq_cons count gap gaps
    obtain rfl : 'x' = b := by simpa [hw] using hb
    exact joins_separator (h gap gaps rfl a ha) rfl

/-- A name that goes on with an `x` behind its digits is no variable and no name of arithmetic. -/
private theorem unknown_of_two {count index : Nat} {more : List Char} {name : String}
    (h : name ∈ variableNames count ∨ isReserved name = true)
    (hn : name.toList = (variableName index).toList ++ 'x' :: more) : False := by
  have hl : name.toList = 'x' :: (Nat.toDigits 10 index ++ 'x' :: more) := by
    rw [hn, toList_variableName]
    rfl
  rcases h with h | h
  · obtain ⟨other, _, rfl⟩ := mem_variableNames.mp h
    rw [toList_variableName] at hl
    have hx : 'x' ∈ Nat.toDigits 10 (other + 1) := by
      rw [(List.cons.inj hl).2]
      simp
    exact absurd (isDigit_of_mem_toDigits hx) (by decide)
  · rw [not_isReserved_of_head (by rw [hl, List.head?_cons])] at h
    cases h

private theorem span_variable (index : Nat) (text : List Char) :
    ((variableName index).toList ++ text).takeWhile isNamePart =
        (variableName index).toList ++ text.takeWhile isNamePart ∧
      ((variableName index).toList ++ text).dropWhile isNamePart = text.dropWhile isNamePart :=
  ⟨List.takeWhile_append_of_pos fun _ hc => isNamePart_of_mem_variableName hc,
    List.dropWhile_append_of_pos fun _ hc => isNamePart_of_mem_variableName hc⟩

/-- A name that goes on from a variable into the gap behind it ends in that gap, if it is known. -/
private theorem span_gap {count total : Nat} {gap : List Char} {gaps : List (List Char)}
    {name : String} (hs : SeamedGaps (gap :: gaps))
    (hn : name.toList = (variableName (count + 1)).toList ++
      (gap ++ weave (count + 1) gaps).takeWhile isNamePart)
    (hk : name ∈ variableNames total ∨ isReserved name = true) :
    (gap ++ weave (count + 1) gaps).takeWhile isNamePart = gap.takeWhile isNamePart ∧
      (gap ++ weave (count + 1) gaps).dropWhile isNamePart =
        gap.dropWhile isNamePart ++ weave (count + 1) gaps ∧ (gap = [] → gaps = []) := by
  cases gaps with
  | nil => exact ⟨by simp [weave], by simp [weave], fun _ => rfl⟩
  | cons next gaps =>
    have hgap : gap ≠ [] := by
      rintro rfl
      obtain ⟨digits, hnext⟩ := weave_eq_cons (count + 1) next gaps
      rw [List.nil_append, hnext, List.takeWhile_cons_of_pos rfl] at hn
      exact unknown_of_two hk hn
    have hall : ¬ gap.all isNamePart = true := by
      intro hall
      obtain ⟨c, hc⟩ : ∃ c, gap.getLast? = some c := by
        rw [← Option.isSome_iff_exists]
        simpa using hgap
      have hpart := List.all_eq_true.mp hall c (List.mem_of_getLast? hc)
      rw [not_isNamePart_of_separator (hs.head c hc)] at hpart
      cases hpart
    have hb : ∀ b ∈ (weave (count + 1) (next :: gaps)).head?,
        gap.all isNamePart = true → isNamePart b = false := fun b _ ha => absurd ha hall
    obtain ⟨ht, hd⟩ := Arithmetic.while_append isNamePart hb
    exact ⟨ht, hd, fun he => absurd he hgap⟩

/-- The tokens of an accepted woven text are those of its gaps, if all its names are known. -/
theorem weaves_of_lexes {count total : Nat} {gaps : List (List Char)} {kinds : List TokenKind}
    (h : Lexes (weave count gaps) kinds)
    (hk : ∀ name, .name name ∈ kinds → name ∈ variableNames total ∨ isReserved name = true)
    (hs : SeamedGaps gaps) : Weaves count gaps kinds := by
  induction gaps generalizing count kinds with
  | nil =>
    obtain rfl := h.unique .done
    exact .none
  | cons gap gaps ih =>
    have hx : isNameStart 'x' = true := rfl
    -- The first token runs from the variable into its gap, and the others start behind it there.
    have hwhole : weave count (gap :: gaps) =
        (variableName (count + 1)).toList ++ (gap ++ weave (count + 1) gaps) := by
      rw [weave, List.append_assoc]
    obtain ⟨digits, hw⟩ := weave_eq_cons count gap gaps
    rw [hw, Lexes.name_iff hx, ← hw, hwhole, (span_variable _ _).1, (span_variable _ _).2] at h
    obtain ⟨more, rfl, hmore⟩ := h
    have hsplit := span_gap hs String.toList_ofList (hk _ List.mem_cons_self)
    rw [hsplit.2.1] at hmore
    have hseam : Apart (gap.dropWhile isNamePart) (weave (count + 1) gaps) := by
      refine Apart.of_suffix (apart_weave ?_) (List.dropWhile_suffix _)
      rintro next others rfl
      exact hs.head
    obtain ⟨own, others, rfl, hown, hothers⟩ := hmore.of_append hseam
    rw [hsplit.1]
    exact .more hsplit.2.2 hown (ih hothers (fun name hm => hk name (by simp [hm])) hs.tail)

end SceneFormula
