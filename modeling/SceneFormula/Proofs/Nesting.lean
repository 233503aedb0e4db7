import SceneFormula.Proofs.MadeCalls
import SceneFormula.Proofs.TextLanguage

namespace SceneFormula

inductive Form where
  | number (form : NumericForm)
  | text (form : TextForm)

def Expression.forms (expression : Expression) : List Form :=
  ((expression.number.form? .zero).map .number).toList ++
    ((expression.text.form? .empty).map .text).toList

namespace Form

def kind : Form → ResultKind
  | number _ => .number
  | text _ => .text

def calls : Form → List (Routine × List Expression)
  | number form => form.calls.map fun call => (call.routine, call.parameters)
  | text form => form.steps.filterMap fun step =>
    match step with
    | .call routine parameters => some (routine, parameters)
    | _ => none

def conversions : Form → List Expression
  | number _ => []
  | text form => form.steps.filterMap fun step =>
    match step with
    | .number expression => some expression
    | _ => none

def expressions (form : Form) : List Expression :=
  form.calls.flatMap (·.2) ++ form.conversions

/-- A form stands in another one at some level, which may be the outermost one. -/
inductive Within (whole : Form) : Form → Prop
  | self : Within whole whole
  | deeper {outer inner : Form} {expression : Expression} (h : Within whole outer)
    (he : expression ∈ outer.expressions) (hf : inner ∈ expression.forms) : Within whole inner

theorem mem_calls_text {form : TextForm} {routine : Routine} {parameters : List Expression} :
    (routine, parameters) ∈ (text form).calls ↔ .call routine parameters ∈ form.steps := by
  rw [calls, List.mem_filterMap]
  constructor
  · rintro ⟨step, hs, he⟩
    cases step with
    | call other others =>
      obtain ⟨rfl, rfl⟩ := Prod.mk.inj (Option.some.inj he)
      exact hs
    | literal => cases he
    | number => cases he
  · intro h
    exact ⟨_, h, rfl⟩

theorem mem_conversions_text {form : TextForm} {expression : Expression} :
    expression ∈ (text form).conversions ↔ .number expression ∈ form.steps := by
  rw [conversions, List.mem_filterMap]
  constructor
  · rintro ⟨step, hs, he⟩
    cases step with
    | number other =>
      obtain rfl := Option.some.inj he
      exact hs
    | literal => cases he
    | call => cases he
  · intro h
    exact ⟨_, h, rfl⟩

end Form

namespace Context

/-- What a text compiles to, as a form of either kind. -/
def Compiles (context : Context) (source : String) : Form → Prop
  | .number form => context.compileNumber source = .ok form
  | .text form => context.compileText source = .ok form

/-- What is accepted at a depth is accepted on its own, with the same form. -/
theorem compilersAt_refines (context : Context) (depth : Nat) :
    (context.compilersAt depth).Refines (context.compilersAt 0) :=
  Compilers.ofLevels_refines le_rfl (Nat.sub_le _ _)

end Context

theorem Binds.compiles {context : Context} {treatment : Treatment} {raw : String}
    {parameter : Expression} {form : Form}
    (h : Binds context.world (context.compilersAt 0) treatment raw parameter)
    (hf : form ∈ parameter.forms) : context.Compiles raw form := by
  cases h with
  | number h =>
    obtain rfl := List.mem_singleton.mp hf
    exact h
  | text h =>
    obtain rfl := List.mem_singleton.mp hf
    exact h
  | verbatim => cases hf

namespace Context.Compiles
variable {context : Context} {source : String} {form inner : Form}

private theorem exists_term {form : TextForm} (h : context.compileText source = .ok form)
    {step : TextStep} (hs : step ∈ form.steps) :
    ∃ term : WrittenTerm, term.span <:+: source.toList ∧
      term.Becomes context.world (context.compilersAt 1) step := by
  rw [compileText_eq] at h
  obtain ⟨cut, hcut, hw, -, hsteps⟩ := TextForm.compileWith_eq_ok_iff.mp h
  rw [hsteps] at hs
  obtain ⟨part, hp, rfl⟩ := List.mem_map.mp hs
  exact ⟨part.term, hw ▸ TextCut.span_infix hp, (hcut.parts part hp).becomes⟩

/-- Each call of a form is made where it is written. -/
theorem exists_makes (h : context.Compiles source form) {call : Routine × List Expression}
    (hc : call ∈ form.calls) :
    ∃ (site : WrittenCall) (target : Target), site.span <:+: source.toList ∧
      site.Makes context.world (context.compilersAt 0) form.kind target call := by
  cases form with
  | number form =>
    rw [Compiles, compileNumber_eq] at h
    obtain ⟨items, program, hr, -, rfl⟩ := NumericForm.compileWith_eq_ok_iff.mp h
    obtain ⟨made, hm, rfl⟩ := List.mem_map.mp hc
    obtain ⟨site, hs⟩ := Item.exists_call_of_mem hm
    obtain ⟨target, hmakes⟩ := hr.exists_makes hs
    exact ⟨site, target, hr.written ▸ Item.span_infix hs,
      hmakes.mono (context.compilersAt_refines 1)⟩
  | text form =>
    obtain ⟨term, hin, hbecomes⟩ := exists_term h (Form.mem_calls_text.mp hc)
    obtain ⟨site, target, hspan, hmakes⟩ := hbecomes.exists_makes
    exact ⟨site, target, hspan ▸ hin, hmakes.mono (context.compilersAt_refines 1)⟩

/-- Each number that a form turns into text is compiled from a part of the source. -/
theorem conversion (h : context.Compiles source form) {expression : Expression}
    (he : expression ∈ form.conversions) :
    expression.raw.toList <:+: source.toList ∧
      Binds context.world (context.compilersAt 0) .number expression.raw expression := by
  cases form with
  | number form => cases he
  | text form =>
    obtain ⟨term, hin, hbecomes⟩ := exists_term h (Form.mem_conversions_text.mp he)
    obtain ⟨hraw, hbinds⟩ := hbecomes.converted
    exact ⟨hraw ▸ hin, hbinds.mono (context.compilersAt_refines 1)⟩

/-- What stands in a form is prepared from its own text, and that is a part of the source or holds
no call. -/
theorem expression (h : context.Compiles source form) {expression : Expression}
    (he : expression ∈ form.expressions) :
    (expression.raw.toList <:+: source.toList ∨ '(' ∉ expression.raw.toList) ∧
      ∃ treatment,
        Binds context.world (context.compilersAt 0) treatment expression.raw expression := by
  rcases List.mem_append.mp he with hparameter | hconversion
  · obtain ⟨call, hc, hp⟩ := List.mem_flatMap.mp hparameter
    obtain ⟨site, target, hin, hmakes⟩ := h.exists_makes hc
    obtain ⟨index, hindex⟩ := List.getElem?_of_mem hp
    exact ⟨(hmakes.raw hp).imp_left (·.trans hin), _, hmakes.binds index _ hindex⟩
  · obtain ⟨hin, hbinds⟩ := h.conversion hconversion
    exact ⟨.inl hin, _, hbinds⟩

/-- Each form that stands in a form is what some text compiles to, which is a part of the source or
holds no call. -/
theorem within (h : context.Compiles source form) (hw : form.Within inner) :
    ∃ raw, context.Compiles raw inner ∧ (raw.toList <:+: source.toList ∨ '(' ∉ raw.toList) := by
  induction hw with
  | self => exact ⟨source, h, .inl List.infix_rfl⟩
  | deeper _ he hf ih =>
    obtain ⟨raw, hcompiles, hraw⟩ := ih
    obtain ⟨hown, treatment, hbinds⟩ := hcompiles.expression he
    refine ⟨_, hbinds.compiles hf, ?_⟩
    rcases hown with hown | hown
    · exact hraw.imp (hown.trans ·) fun hplain hc => hplain (hown.subset hc)
    · exact .inr hown

/-- Each call at any level is made where it is written in the source. -/
theorem within_exists_makes (h : context.Compiles source form) (hw : form.Within inner)
    {call : Routine × List Expression} (hc : call ∈ inner.calls) :
    ∃ (site : WrittenCall) (target : Target), site.span <:+: source.toList ∧
      site.Makes context.world (context.compilersAt 0) inner.kind target call := by
  obtain ⟨raw, hcompiles, hraw⟩ := h.within hw
  obtain ⟨site, target, hin, hmakes⟩ := hcompiles.exists_makes hc
  rcases hraw with hraw | hplain
  · exact ⟨site, target, hin.trans hraw, hmakes⟩
  · exact absurd (hin.subset site.mem_span) hplain

end Context.Compiles

/-- A call one level inside of a text, found by running through all of them. -/
theorem Context.exists_inner_call (context : Context) (source : String) (routine : Routine)
    (h : (context.compileText source).toOption.any (fun form =>
      (Form.text form).expressions.any fun expression => expression.forms.any fun inner =>
        inner.calls.any fun call => call.1 == routine) = true) :
    ∃ form inner call, context.Compiles source form ∧ form.Within inner ∧ call ∈ inner.calls ∧
      call.1 = routine := by
  cases hc : context.compileText source with
  | error fault =>
    rw [hc] at h
    cases h
  | ok form =>
    rw [hc] at h
    obtain ⟨expression, he, hforms⟩ := List.any_eq_true.mp h
    obtain ⟨inner, hf, hcalls⟩ := List.any_eq_true.mp hforms
    obtain ⟨call, hcall, hroutine⟩ := List.any_eq_true.mp hcalls
    exact ⟨.text form, inner, call, hc, .deeper .self he hf, hcall, eq_of_beq hroutine⟩

end SceneFormula
