import SceneFormula.Proofs.DepthLimits
import SceneFormula.Proofs.LevelLimits
import SceneFormula.Proofs.Lexing

/-! What a smaller limit does to a text that a larger one accepts. The first place that goes over
the smaller limit, in the order of reading, decides: excess nesting is told as such, but within a
number that is turned into text it is lost, as any fault of that number is told as a function that
is not recognised. -/
namespace SceneFormula
open Arithmetic (Program)

/-- The faults in which a place shows that goes over a limit. -/
inductive Excess.Shows (limit : Nat) : Excess → Fault → Prop
  | told : Shows limit .told (.nestingTooDeep limit)
  | hidden (name : String) (position : Nat) :
    Shows limit .hidden (.unrecognizedFunction name position)

theorem Excess.Shows.movedBy {limit : Nat} {excess : Excess} {fault : Fault}
    (h : excess.Shows limit fault) (base : Nat) : excess.Shows limit (fault.movedBy base) := by
  cases h with
  | told => exact .told
  | hidden name position => exact .hidden name _

def NumericForm.excessWith? (gauges : Gauges) (limit : Nat) (form : NumericForm) :
    Option Excess :=
  (form.calls.findSome? (·.excess? gauges)).or
    (if (Program.parse form.program.source form.program.parameters limit).toBool then none
      else some .told)

def TextForm.excessWith? (gauges : Gauges) (form : TextForm) : Option Excess :=
  form.steps.findSome? (·.excess? gauges)

def Gauges.ofLevels (limit : Nat) : Nat → Gauges
  | 0 => { number := fun _ => some .told, text := fun _ => some .told }
  | left + 1 =>
    { number := fun form => form.excessWith? (ofLevels limit left) limit
      text := fun form => form.excessWith? (ofLevels limit left) }

/-- What becomes of the first place at which a numeric form goes over a limit. -/
def NumericForm.excess? (limit : UInt64) (form : NumericForm) : Option Excess :=
  (Gauges.ofLevels limit.toNat (limit.toNat + 1)).number form

def TextForm.excess? (limit : UInt64) (form : TextForm) : Option Excess :=
  (Gauges.ofLevels limit.toNat (limit.toNat + 1)).text form

/-- A run under a limit beside one under a larger limit. Nothing is said of what the latter
refuses. -/
def Pairing.lowered (limit : Nat) : Pairing where
  Shows := Excess.Shows limit
  Meets _ _ := True
  shows_movedBy h base := h.movedBy base
  shows_hidden _ name position := .hidden name position
  meets_movedBy _ _ := trivial
  meets_self _ _ := trivial
  meets_of_shows _ _ _ := trivial
  meets_of_none _ _ _ := trivial

/-- Arithmetic that a smaller limit refuses nests too deep for it. -/
private theorem parse_lowered (source : String) (parameters : List String) {limit more : Nat}
    (h : limit ≤ more) {program : Program}
    (hp : Program.parse source parameters more = .ok program) :
    Program.parse source parameters limit = .ok program ∨
      Program.parse source parameters limit = .error (.nestingTooDeep limit) := by
  unfold Program.parse at hp ⊢
  dsimp only at hp ⊢
  split at hp
  · cases hp
  · rename_i tokens _
    have hl := Arithmetic.Term.ofTokens_limited parameters (Source.width source.toList) h tokens
    generalize Arithmetic.Term.ofTokens ⟨parameters, _, limit⟩ tokens = one,
      Arithmetic.Term.ofTokens ⟨parameters, _, more⟩ tokens = other at hl hp
    cases hl with
    | read term => exact .inl hp
    | malformed fault => cases hp
    | tooDeep other => exact .inr rfl

section Levels
variable (context : Context) (more : UInt64) {limit : UInt64}

private theorem program_lowered (hl : limit.toNat ≤ more.toNat) (source : String)
    (parameters : List String) :
    Paired (.lowered limit.toNat) (fun program : Program =>
        if (Program.parse program.source program.parameters limit.toNat).toBool then none
        else some .told)
      (Program.parse source parameters limit.toNat)
      (Program.parse source parameters more.toNat) := by
  cases hp : Program.parse source parameters more.toNat with
  | error fault => exact .of_meets (fun _ => trivial) _
  | ok program =>
    obtain ⟨kinds, term, -, -, rfl⟩ := Program.parse_eq_ok_iff.mp hp
    rcases parse_lowered source parameters hl hp with hone | hone
    · rw [hone]
      exact .kept (by simp [hone, Except.toBool])
    · rw [hone]
      exact .broken (by simp [hone, Except.toBool]) .told

private theorem Compilers.ofLevels_lowered (hl : limit.toNat ≤ more.toNat) {left levels : Nat}
    (h : left ≤ levels) (raw : String) :
    (ofLevels (context.limitedTo limit) left).Paired (.lowered limit.toNat)
      (Gauges.ofLevels limit.toNat left) (ofLevels (context.limitedTo more) levels) raw := by
  induction left generalizing levels raw with
  | zero =>
    have hdeep : Excess.Shows limit.toNat .told (.nestingTooDeep limit.toNat) := .told
    exact ⟨.of_shows hdeep fun _ _ => rfl, .of_shows hdeep fun _ _ => rfl⟩
  | succ left ih =>
    obtain ⟨levels, rfl⟩ : ∃ k, levels = k + 1 := ⟨levels - 1, by omega⟩
    have hruns := Pairing.TextRuns.of_all (context.limitedTo limit) (context.limitedTo more) rfl
      (.same rfl fun _ => trivial) (ih (Nat.le_of_succ_le_succ h)) raw.toList
    exact ⟨NumericForm.compileWith_paired hruns.toRuns _ (fun _ => rfl) fun _ _ =>
        program_lowered more hl _ _,
      TextForm.compileWith_paired hruns⟩

end Levels

/-- Excess nesting is told as such unless it is hidden. -/
private theorem told_iff_of_lowered {α : Type} {limit : Nat} {excess? : α → Option Excess}
    {answer : Except Fault α} {value : α}
    (h : Paired (.lowered limit) excess? answer (.ok value)) :
    answer = .ok value ∨ answer = .error (.nestingTooDeep limit) ↔
      excess? value ≠ some .hidden := by
  cases h with
  | kept h => simp [h]
  | broken h hs => cases hs <;> simp [h]

namespace Context

/-- A text that is accepted under a limit has under a smaller one the same form, or it nests too
deep, unless the first place that goes over the smaller limit is hidden. -/
theorem compile_lowered_iff (context : Context) (source : String) {limit more : UInt64}
    (h : limit ≤ more) :
    (∀ form, (context.limitedTo more).compileNumber source = .ok form →
      ((context.limitedTo limit).compileNumber source = .ok form ∨
        (context.limitedTo limit).compileNumber source = .error (.nestingTooDeep limit.toNat) ↔
          form.excess? limit ≠ some .hidden)) ∧
    ∀ form, (context.limitedTo more).compileText source = .ok form →
      ((context.limitedTo limit).compileText source = .ok form ∨
        (context.limitedTo limit).compileText source = .error (.nestingTooDeep limit.toNat) ↔
          form.excess? limit ≠ some .hidden) := by
  have hle : limit.toNat ≤ more.toNat := UInt64.le_iff_toNat_le.mp h
  have hc : ((context.limitedTo limit).compilersAt 0).Paired (.lowered limit.toNat)
      (Gauges.ofLevels limit.toNat (limit.toNat + 1)) ((context.limitedTo more).compilersAt 0)
      source :=
    Compilers.ofLevels_lowered context more hle (Nat.succ_le_succ hle) source
  constructor
  · intro form hf
    have hone := hc.number
    rw [show ((context.limitedTo more).compilersAt 0).number source = .ok form from hf] at hone
    exact told_iff_of_lowered hone
  · intro form hf
    have hone := hc.text
    rw [show ((context.limitedTo more).compilersAt 0).text source = .ok form from hf] at hone
    exact told_iff_of_lowered hone

/-- The parentheses of a parameter are told in a number, and hidden by a number in a text. -/
theorem compile_lowered_iff_sample :
    (2 : UInt64) ≤ 3 ∧
    (sample.limitedTo 2).compileNumber "Player.Physics::Speed((((1))))" =
      .error (.nestingTooDeep 2) ∧
    ∃ form, (sample.limitedTo 3).compileText "Player.Physics::Speed((((1))))" = .ok form ∧
      ¬ ((sample.limitedTo 2).compileText "Player.Physics::Speed((((1))))" = .ok form ∨
        (sample.limitedTo 2).compileText "Player.Physics::Speed((((1))))" =
          .error (.nestingTooDeep 2)) := by
  obtain ⟨hnumber, htext⟩ := compile_lowered_iff sample "Player.Physics::Speed((((1))))"
    (by decide : (2 : UInt64) ≤ 3)
  obtain ⟨form, hform⟩ := exists_eq_ok (by decide +kernel :
    ((sample.limitedTo 3).compileNumber "Player.Physics::Speed((((1))))").toBool = true)
  obtain ⟨other, hother⟩ := exists_eq_ok (by decide +kernel :
    ((sample.limitedTo 3).compileText "Player.Physics::Speed((((1))))").toBool = true)
  have htold : ((sample.limitedTo 3).compileNumber
      "Player.Physics::Speed((((1))))").toOption.bind (·.excess? 2) = some .told := by
    decide +kernel
  have hhidden : ((sample.limitedTo 3).compileText
      "Player.Physics::Speed((((1))))").toOption.bind (·.excess? 2) = some .hidden := by
    decide +kernel
  rw [hform] at htold
  rw [hother] at hhidden
  refine ⟨by decide, ?_, other, hother, fun h => (htext other hother).mp h hhidden⟩
  have hrefused : ((sample.limitedTo 2).compileNumber
      "Player.Physics::Speed((((1))))").toBool = false := by decide +kernel
  refine ((hnumber form hform).mpr fun he => by cases htold.symm.trans he).resolve_left fun h => ?_
  rw [h] at hrefused
  cases hrefused

/-- Excess nesting is not always told as such. -/
theorem not_compile_lowered :
    ¬ ∀ (context : Context) (source : String) (limit more : UInt64), limit ≤ more →
      (∀ form, (context.limitedTo more).compileNumber source = .ok form →
        (context.limitedTo limit).compileNumber source = .ok form ∨
          (context.limitedTo limit).compileNumber source =
            .error (.nestingTooDeep limit.toNat)) ∧
      ∀ form, (context.limitedTo more).compileText source = .ok form →
        (context.limitedTo limit).compileText source = .ok form ∨
          (context.limitedTo limit).compileText source =
            .error (.nestingTooDeep limit.toNat) := by
  intro h
  obtain ⟨form, hform⟩ := exists_eq_ok (by decide +kernel :
    ((sample.limitedTo 3).compileText "Player.Physics::Speed((((1))))").toBool = true)
  have hlost : (match (sample.limitedTo 2).compileText "Player.Physics::Speed((((1))))" with
      | .error (.unrecognizedFunction _ _) => true
      | _ => false) = true := by decide +kernel
  rcases (h sample _ 2 3 (by decide)).2 form hform with ho | ho <;> rw [ho] at hlost <;>
    cases hlost

end Context
end SceneFormula
