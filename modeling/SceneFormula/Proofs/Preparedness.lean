import SceneFormula.Proofs.Nesting

/-! What an accepted text holds is prepared throughout: at every level, each call has as many
parameters as its function allows, and each expression holds the form that is asked of it and no
other. -/
namespace SceneFormula

/-- The forms that an expression holds: the one that it is to be treated as, which is what its text
compiles to on its own, and no other. -/
def Expression.Holds (context : Context) (expression : Expression) : Treatment → Prop
  | .number =>
    (∃ form, context.compileNumber expression.raw = .ok form ∧ expression.number = .ready form) ∧
      expression.text = .absent
  | .text =>
    (∃ form, context.compileText expression.raw = .ok form ∧ expression.text = .ready form) ∧
      expression.number = .absent
  | .verbatim => expression.number = .absent ∧ expression.text = .absent

structure Expression.Prepared (context : Context) (treatment : Treatment)
    (expression : Expression) : Prop where
  holds : expression.Holds context treatment
  fault : expression.fault = none

theorem Binds.prepared {context : Context} {treatment : Treatment} {raw : String}
    {parameter : Expression}
    (h : Binds context.world (context.compilersAt 0) treatment raw parameter) :
    parameter.Prepared context treatment := by
  cases h with
  | number h => exact ⟨⟨⟨_, h, rfl⟩, rfl⟩, rfl⟩
  | text h => exact ⟨⟨⟨_, h, rfl⟩, rfl⟩, rfl⟩
  | verbatim => exact ⟨⟨rfl, rfl⟩, rfl⟩

namespace Context.Compiles
variable {context : Context} {source : String} {form inner : Form}

/-- At every level of an accepted text, the calls are of functions that they mean where they are
written, they have as many parameters as these allow, and all that stands there is prepared as its
own text is on its own. -/
theorem within_prepared (h : context.Compiles source form) (hw : form.Within inner) :
    (∀ routine parameters, (routine, parameters) ∈ inner.calls →
      ∃ (site : WrittenCall) (target : Target), site.span <:+: source.toList ∧
        context.world.resolve inner.kind site.receiver? site.function = some target ∧
        routine = target.routine ∧
        parameters.map (·.raw) =
          target.receivers ++ (inner.kind.given site.arguments).map String.ofList ∧
        inner.kind.Allows target.declarations parameters.length ∧
        ∀ index (parameter : Expression), parameters[index]? = some parameter →
          parameter.Prepared context (target.treatment inner.kind index)) ∧
    ∀ expression ∈ inner.conversions, expression.Prepared context .number := by
  constructor
  · intro routine parameters hc
    obtain ⟨site, target, hin, hmakes⟩ := h.within_exists_makes hw hc
    exact ⟨site, target, hin, hmakes.resolved, hmakes.routine, hmakes.raws, hmakes.count,
      fun index parameter hp => (hmakes.binds index parameter hp).prepared⟩
  · intro expression he
    obtain ⟨raw, hcompiles, -⟩ := h.within hw
    exact (hcompiles.conversion he).2.prepared

theorem within_prepared_sample :
    ∃ (form inner : Form) (parameters : List Expression) (site : WrittenCall) (target : Target),
      textSample.Compiles "Upper(\"at \" + Player.Physics::State(1 + 1))" form ∧
      form.Within inner ∧ (.component ⟨2⟩ ⟨2⟩, parameters) ∈ inner.calls ∧
      textSample.world.resolve inner.kind site.receiver? site.function = some target ∧
      inner.kind.Allows target.declarations parameters.length ∧
      ∀ index (parameter : Expression), parameters[index]? = some parameter →
        parameter.Prepared textSample (target.treatment inner.kind index) := by
  obtain ⟨form, inner, ⟨_, parameters⟩, h, hw, hc, rfl⟩ := textSample.exists_inner_call
    "Upper(\"at \" + Player.Physics::State(1 + 1))" (.component ⟨2⟩ ⟨2⟩) (by decide +kernel)
  obtain ⟨hcalls, -⟩ := h.within_prepared hw
  obtain ⟨site, target, -, hresolved, -, -, hcount, hprepared⟩ := hcalls _ _ hc
  exact ⟨form, inner, parameters, site, target, h, hw, hc, hresolved, hcount, hprepared⟩

end Context.Compiles
end SceneFormula
