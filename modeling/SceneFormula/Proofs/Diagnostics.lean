import SceneFormula.Proofs.LevelLimits
import SceneFormula.Proofs.PairedRuns

/-! A run that keeps faults beside one that does not. Both accept the same texts and give the same
forms. Where a call has surplus parameters, the run that keeps faults stops at the first of them;
the other one goes on to the end of the list, prepares none of them, and fails there. -/
namespace SceneFormula
open Arithmetic (Program)

def Context.keeping (context : Context) (diagnostics : Bool) : Context :=
  { context with options := { context.options with diagnostics } }

/-- A fault where faults are not kept, beside the fault where they are kept. A surplus parameter is
told by the second one only. -/
inductive Fault.Coarsens : Fault → Fault → Prop
  | same {fault : Fault} (h : ∀ surplus, fault ≠ .tooManyParameters surplus) :
    Coarsens fault fault
  | count (place atLeast atMost found surplus : Nat) :
    Coarsens (.wrongParameterCount place atLeast atMost found) (.tooManyParameters surplus)
  | unclosed (place surplus : Nat) :
    Coarsens (.unterminatedParentheses place) (.tooManyParameters surplus)

theorem Fault.Coarsens.movedBy {silent told : Fault} (h : silent.Coarsens told) (base : Nat) :
    (silent.movedBy base).Coarsens (told.movedBy base) := by
  cases h with
  | same h =>
    refine .same fun surplus hs => ?_
    cases silent with
    | tooManyParameters place => exact h place rfl
    | _ => cases hs
  | count => exact .count _ _ _ _ _
  | unclosed => exact .unclosed _ _

/-- Where faults are not kept, no surplus parameter is told. -/
theorem Fault.Coarsens.ne_tooManyParameters {silent told : Fault} (h : silent.Coarsens told)
    (surplus : Nat) : silent ≠ .tooManyParameters surplus := by
  cases h with
  | same h => exact h surplus
  | count => nofun
  | unclosed => nofun

/-- An answer where faults are not kept, beside the answer where they are kept. -/
inductive Agree {α : Type} : Except Fault α → Except Fault α → Prop
  | accepted (value : α) : Agree (.ok value) (.ok value)
  | refused {silent told : Fault} (h : silent.Coarsens told) : Agree (.error silent) (.error told)

theorem Agree.ne_tooManyParameters {α : Type} {silent told : Except Fault α}
    (h : Agree silent told) (surplus : Nat) : silent ≠ .error (.tooManyParameters surplus) := by
  rintro rfl
  cases h with
  | refused h => exact h.ne_tooManyParameters surplus rfl

def FaultRelation.coarsens : FaultRelation where
  Relates := Fault.Coarsens
  movedBy h base := h.movedBy base
  self _ hs := by
    refine .same ?_
    rintro surplus rfl
    cases hs

theorem Agree.of_paired {α : Type} {excess? : α → Option Excess} {silent told : Except Fault α}
    (h : Paired FaultRelation.coarsens.pairing excess? silent told) : Agree silent told := by
  rcases FaultRelation.of_paired h with ⟨value, rfl, rfl⟩ | ⟨fault, told, rfl, rfl, hc⟩
  · exact .accepted value
  · exact .refused hc

theorem Agree.paired {α : Type} {silent told : Except Fault α} (h : Agree silent told) :
    Paired FaultRelation.coarsens.pairing (fun _ => none) silent told := by
  cases h with
  | accepted => exact .kept rfl
  | refused h => exact FaultRelation.paired h

theorem Agree.of_ne {α : Type} {answer : Except Fault α}
    (h : ∀ surplus, answer ≠ .error (.tooManyParameters surplus)) : Agree answer answer := by
  cases answer with
  | ok value => exact .accepted value
  | error fault => exact .refused (.same fun surplus hf => h surplus (congrArg Except.error hf))

/-- Arithmetic has no parameters that could be too many. -/
theorem Arithmetic.Program.parse_ne_tooManyParameters (source : String) (parameters : List String)
    (limit surplus : Nat) :
    Program.parse source parameters limit ≠ .error (.tooManyParameters surplus) := by
  intro h
  cases Program.position_of_parse h

private theorem tellsLate_keeping : FaultRelation.coarsens.pairing.TellsLate :=
  ⟨fun _ _ => ⟨_, rfl, .unclosed _ _⟩, fun _ _ _ _ _ => ⟨_, rfl, .count _ _ _ _ _⟩⟩

/-- Compilers of as many levels agree. -/
theorem Compilers.ofLevels_keeping (context : Context) (left : Nat) (raw : String) :
    (ofLevels (context.keeping false) left).Paired FaultRelation.coarsens.pairing .none
      (ofLevels (context.keeping true) left) raw := by
  induction left generalizing raw with
  | zero =>
    have hdeep (limit : Nat) : Fault.Coarsens (.nestingTooDeep limit) (.nestingTooDeep limit) :=
      .same nofun
    exact ⟨(Agree.refused (hdeep _)).paired, (Agree.refused (hdeep _)).paired⟩
  | succ left ih =>
    have hruns := Pairing.TextRuns.of_all (context.keeping false) (context.keeping true) rfl
      (.untold rfl rfl tellsLate_keeping) ih raw.toList
    have hnumber := NumericForm.compileWith_paired hruns.toRuns (fun _ => none) (fun _ => rfl)
      fun stretches _ => (Agree.of_ne (Program.parse_ne_tooManyParameters _ _ _)).paired
    have htext := TextForm.compileWith_paired hruns
    exact ⟨(Agree.of_paired hnumber).paired, (Agree.of_paired htext).paired⟩

namespace Context

/-- Whether faults are kept changes neither what is accepted nor its form. What is refused is
refused with the same fault, unless that is a surplus parameter: without diagnostics it is told as a
wrong number of parameters, or the end of the list is missing. -/
theorem compile_agree (context : Context) (source : String) :
    Agree ((context.keeping false).compileNumber source)
        ((context.keeping true).compileNumber source) ∧
      Agree ((context.keeping false).compileText source)
        ((context.keeping true).compileText source) := by
  have h := Compilers.ofLevels_keeping context (context.options.maxDepth.toNat + 1) source
  exact ⟨.of_paired h.number, .of_paired h.text⟩

/-- Without diagnostics no surplus parameter is told. -/
theorem keeping_false_ne_tooManyParameters (context : Context) (source : String) (surplus : Nat) :
    (context.keeping false).compileNumber source ≠ .error (.tooManyParameters surplus) ∧
      (context.keeping false).compileText source ≠ .error (.tooManyParameters surplus) := by
  have h := Compilers.ofLevels_keeping context (context.options.maxDepth.toNat + 1) source
  exact ⟨(Agree.of_paired h.number).ne_tooManyParameters surplus,
    (Agree.of_paired h.text).ne_tooManyParameters surplus⟩

end Context
end SceneFormula
