import SceneFormula.Proofs.ArgumentPlaces
import SceneFormula.Proofs.LevelLimits
import SceneFormula.Proofs.NameOrigins
import SceneFormula.Proofs.Seams

/-! Where faults lie. The position of a fault is that of a byte of its text, and what stands there
tells the fault. A fault of an argument lies in the text around it, at as many bytes behind the
start of the argument. -/
namespace SceneFormula
open Source (Argument ArgumentList separators splitQuoted width)

namespace Source

def HasAt (characters text : List Char) (offset : Nat) : Prop :=
  ∃ c ∈ characters, byteAt? text offset = some c.toUInt8

theorem HasAt.intro {characters : List Char} {c : Char} (hc : c ∈ characters)
    (hb : String.utf8EncodeChar c = [c.toUInt8]) (before after : List Char) :
    HasAt characters (before ++ c :: after) (width before) := by
  refine ⟨c, hc, ?_⟩
  have hbytes : bytes (c :: after) = c.toUInt8 :: bytes after := by
    rw [bytes, List.flatMap_cons, hb]
    rfl
  rw [byteAt?, bytes_append, hbytes, ← length_bytes, List.getElem?_append_right (Nat.le_refl _),
    Nat.sub_self]
  rfl

/-- What stands at a byte of a part stands in the whole. -/
theorem HasAt.within {characters text : List Char} {offset : Nat} (h : HasAt characters text offset)
    (before after : List Char) :
    HasAt characters (before ++ (text ++ after)) (width before + offset) := by
  obtain ⟨c, hc, hb⟩ := h
  refine ⟨c, hc, ?_⟩
  obtain ⟨hlt, -⟩ := List.getElem?_eq_some_iff.mp hb
  rw [byteAt?] at hb ⊢
  rw [bytes_append, bytes_append, ← length_bytes,
    List.getElem?_append_right (Nat.le_add_right _ _), Nat.add_sub_cancel_left,
    List.getElem?_append_left hlt, hb]

theorem width_lt_append (front : List Char) {text : List Char} (h : text ≠ []) :
    width front < width (front ++ text) := by
  have hpos : width text ≠ 0 := fun hz => h (eq_nil_of_width hz)
  rw [width_append]
  omega

def Names (name text : List Char) : Prop :=
  name <+: text ∨ ∃ object, '.' ∉ object ∧ object ++ '.' :: name <+: text

theorem Names.append {name text : List Char} (h : Names name text) (more : List Char) :
    Names name (text ++ more) := by
  rcases h with h | ⟨object, ho, h⟩
  · exact .inl (h.trans (List.prefix_append _ _))
  · exact .inr ⟨object, ho, h.trans (List.prefix_append _ _)⟩

end Source
open Source (HasAt Names)

namespace Fault

def Marked (text : List Char) : Fault → Prop
  | unterminatedQuotes p => HasAt ['"'] text p
  | missingTermBetweenOperators p => HasAt ['+'] text p
  | missingConcatenationOperator p => HasAt ['.', '(', '"'] text p
  | wrongParameterCount p _ _ _ => HasAt [' ', '('] text p
  | tooManyParameters p => ∃ before, p = before + 1 ∧ HasAt [',', '('] text before
  | unterminatedParentheses p => p + 1 = width text ∨ HasAt [',', ')'] text (p + 1)
  | unrecognizedFunction name p =>
    ∃ before after, text = before ++ after ∧ p = width before ∧ Names name.toList after
  | missingParameterParentheses _ | emptyOrInvalidExpression _ | arithmeticSyntax _
  | nestingTooDeep _ | invalidOptions _ => True

/-- A fault lies at a byte of a text, or at the start of an empty one, and is told by what stands
there. -/
structure LiesIn (text : List Char) (fault : Fault) : Prop where
  inside {p : Nat} (h : fault.position = some p) : p < width text ∨ text = [] ∧ p = 0
  marked : fault.Marked text

namespace LiesIn
variable {text : List Char} {fault : Fault}

/-- A fault that has no place lies in any text. -/
theorem of_unplaced (h : fault.position = none) : fault.LiesIn text := by
  cases fault with
  | arithmeticSyntax | nestingTooDeep | invalidOptions => exact ⟨nofun, trivial⟩
  | _ => cases h

/-- A fault at a byte of a text. -/
theorem of_lt {p : Nat} (hp : fault.position = some p) (hlt : p < width text)
    (hm : fault.Marked text) : fault.LiesIn text := by
  refine ⟨fun h => ?_, hm⟩
  obtain rfl := Option.some.inj (hp.symm.trans h)
  exact .inl hlt

/-- A fault of an argument lies in the text in which the argument stands. -/
theorem of_argument {argument : Argument} (h : argument.StandsIn text)
    (hf : fault.LiesIn argument.text) : (fault.movedBy argument.start).LiesIn text := by
  cases h with
  | @intro before written after opening ho ha hne =>
    have hwidth : width before + 1 = width (before ++ [opening]) := by
      have hone : opening.utf8Size = 1 := by
        simp only [List.mem_cons, List.not_mem_nil, or_false] at ho
        rcases ho with rfl | rfl <;> rfl
      rw [Source.width_append, Source.width_cons, Source.width_nil, hone]
    have htext : before ++ opening :: (written ++ after) =
        before ++ [opening] ++ (written ++ after) := by simp
    simp only at hf ⊢
    rw [htext, hwidth]
    generalize before ++ [opening] = front
    refine ⟨fun {p} hp => .inl ?_, ?_⟩
    · rw [position_movedBy] at hp
      obtain ⟨inner, hi, rfl⟩ := Option.map_eq_some_iff.mp hp
      rw [Source.width_append, Source.width_append]
      rcases hf.inside hi with hlt | ⟨rfl, rfl⟩
      · omega
      · rw [List.nil_append] at hne
        have hpos : width after ≠ 0 := fun hz => hne (Source.eq_nil_of_width hz)
        rw [Source.width_nil]
        omega
    · have hm := hf.marked
      cases fault with
      | unterminatedQuotes | missingTermBetweenOperators | missingConcatenationOperator
      | wrongParameterCount => exact hm.within front after
      | tooManyParameters =>
        obtain ⟨inner, rfl, hi⟩ := hm
        exact ⟨width front + inner, rfl, hi.within front after⟩
      | unterminatedParentheses p =>
        rcases hm with hend | hi
        · change width front + p + 1 = _ ∨ _
          rw [Nat.add_assoc, hend, ← Source.width_append]
          cases after with
          | nil => exact .inl (by rw [List.append_nil])
          | cons c after =>
            right
            have hc := ha c rfl
            rw [← List.append_assoc]
            refine .intro hc ?_ (front ++ written) after
            simp only [List.mem_cons, List.not_mem_nil, or_false] at hc
            rcases hc with rfl | rfl <;> rfl
        · right
          rw [Nat.add_assoc]
          exact hi.within front after
      | unrecognizedFunction name p =>
        obtain ⟨lead, rest, rfl, rfl, hn⟩ := hm
        refine ⟨front ++ lead, rest ++ after, by simp, ?_, hn.append after⟩
        rw [Source.width_append]
      | missingParameterParentheses | emptyOrInvalidExpression | arithmeticSyntax | nestingTooDeep
      | invalidOptions => trivial

end LiesIn
end Fault
end SceneFormula
