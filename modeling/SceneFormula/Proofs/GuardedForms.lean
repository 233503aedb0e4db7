import SceneFormula.Formula.Compile
import SceneFormula.Proofs.GuardedTexts

/-! Both compilers give an answer for every text, in every world and under every limit, and no
operation fails on the way: no slice is out of order, out of the text or inside a character, nothing
is subtracted from zero, no token is looked for behind the end, every step leads on, and every
nested text is shorter, or as long where a call in a text expression is made a number. -/
namespace SceneFormula
open Source (width)

def GuardedCompilers.ofLevels (context : Context) : Nat → GuardedCompilers
  | 0 =>
    { number := fun _ => throw (.nestingTooDeep context.options.maxDepth.toNat)
      text := fun _ => throw (.nestingTooDeep context.options.maxDepth.toNat) }
  | left + 1 =>
    { number := fun raw => NumericForm.compileGuarded context (ofLevels context left) raw
      text := fun raw => TextForm.compileGuarded context (ofLevels context left) raw }

theorem GuardedCompilers.ofLevels_safe (context : Context) (left bound : Nat) :
    (ofLevels context left).Safe bound (.ofLevels context left) := by
  induction left generalizing bound with
  | zero => exact ⟨fun _ _ => rfl, fun _ _ => rfl⟩
  | succ left ih =>
    exact ⟨fun raw _ => NumericForm.compileGuarded_eq (ih (width raw.toList)),
      fun raw _ => TextForm.compileGuarded_eq (ih (width raw.toList + 1))⟩

namespace Context

/-- The compilers for the outermost text, whose operations can fail. -/
def guardedCompilers (context : Context) : GuardedCompilers :=
  .ofLevels context (context.options.maxDepth.toNat + 1)

/-- Each compiler gives its answer, and no operation fails on the way. -/
theorem guardedCompilers_eq (context : Context) (raw : String) :
    context.guardedCompilers.number raw = .of (context.compileNumber raw) ∧
      context.guardedCompilers.text raw = .of (context.compileText raw) := by
  have hsafe := GuardedCompilers.ofLevels_safe context (context.options.maxDepth.toNat + 1)
    (width raw.toList + 1)
  exact ⟨hsafe.number raw (Nat.lt_succ_self _), hsafe.text raw (Nat.lt_succ_self _)⟩

end Context
end SceneFormula
