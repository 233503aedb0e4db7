import SceneFormula.Proofs.Nesting

namespace SceneFormula
open Arithmetic (isReserved)

/-- The functions that a world has for a call as it is written, with parameters of these texts: a
free function of its name; a function of that name for the type of the object that comes first; or
a member of the component that comes second and is attached to that object, where the type of the
object has no function of the whole name. -/
inductive WrittenCall.Sanctions (world : World) (kind : ResultKind) :
    WrittenCall → Routine → List String → Prop
  | free {name inside : List Char} {raws : List String} {signature : Signature}
    (hf : world.function? kind .free (String.ofList name) = some signature) :
    Sanctions world kind ⟨name, none, inside⟩ (.free signature.id) raws
  | object {site : WrittenCall} {object : String} {raws : List String} {type : EntityType}
    {signature : Signature} (ho : world.objectType? object = some type)
    (hf : world.function? kind (.object type) site.function = some signature) :
    Sanctions world kind site (.object type signature.id) (object :: raws)
  | component {site : WrittenCall} {object component member : String} {raws : List String}
    {type : EntityType} {signature : Signature}
    (hn : site.function = component ++ "::" ++ member)
    (hc : world.componentType? component = some type) (ha : type ∈ world.attached object)
    (hf : world.function? kind (.component type) member = some signature)
    (hown : ∀ own, world.objectType? object = some own →
      world.function? kind (.object own) site.function = none) :
    Sanctions world kind site (.component type signature.id) (object :: component :: raws)

/-- What a call becomes is sanctioned by the world that it is resolved in. -/
theorem WrittenCall.Makes.sanctions {world : World} {compilers : Compilers} {kind : ResultKind}
    {site : WrittenCall} {target : Target} {call : Routine × List Expression}
    (h : site.Makes world compilers kind target call) :
    site.Sanctions world kind call.1 (call.2.map (·.raw)) := by
  have hmeans := World.resolve_eq_some_iff.mp h.resolved
  rw [h.routine, h.raws]
  obtain ⟨name, member, inside⟩ := site
  cases member with
  | none =>
    cases hmeans with
    | free hf => exact .free hf
  | some member =>
    cases hmeans with
    | object ho hf => exact .object ho hf
    | component hn hc hf ha hown =>
      refine .component ?_ hc ha hf hown
      rw [← String.toList_inj, Source.splitComponent_eq hn]
      simp

namespace Context.Compiles
variable {context : Context} {source : String} {form inner : Form}

/-- Each call at every level of an accepted text is written in that text and is one of a function
that the world has for it, and a numeric one has no name of a builtin function. -/
theorem within_sanctioned (h : context.Compiles source form) (hw : form.Within inner)
    {routine : Routine} {parameters : List Expression}
    (hc : (routine, parameters) ∈ inner.calls) :
    ∃ site : WrittenCall, site.span <:+: source.toList ∧
      site.Sanctions context.world inner.kind routine (parameters.map (·.raw)) ∧
      (inner.kind = .number → isReserved site.function = false) := by
  obtain ⟨site, target, hin, hmakes⟩ := h.within_exists_makes hw hc
  exact ⟨site, hin, hmakes.sanctions, hmakes.unreserved⟩

theorem within_sanctioned_sample :
    ∃ (form inner : Form) (parameters : List Expression) (site : WrittenCall),
      textSample.Compiles "Upper(\"at \" + Player.Physics::State(1 + 1))" form ∧
      form.Within inner ∧ (.component ⟨2⟩ ⟨2⟩, parameters) ∈ inner.calls ∧
      site.span <:+: "Upper(\"at \" + Player.Physics::State(1 + 1))".toList ∧
      site.Sanctions textSample.world inner.kind (.component ⟨2⟩ ⟨2⟩) (parameters.map (·.raw)) := by
  obtain ⟨form, inner, ⟨_, parameters⟩, h, hw, hc, rfl⟩ := textSample.exists_inner_call
    "Upper(\"at \" + Player.Physics::State(1 + 1))" (.component ⟨2⟩ ⟨2⟩) (by decide +kernel)
  obtain ⟨site, hin, hsanctions, -⟩ := h.within_sanctioned hw hc
  exact ⟨form, inner, parameters, site, h, hw, hc, hin, hsanctions⟩

end Context.Compiles
end SceneFormula
