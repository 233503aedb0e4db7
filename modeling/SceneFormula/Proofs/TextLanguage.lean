import SceneFormula.Formula.Compile
import SceneFormula.Proofs.NameOrigins
import SceneFormula.Proofs.Replacement
import SceneFormula.Proofs.TextCuts

/-! The language of text expressions, told in the bytes of the source: a text is accepted if and
only if it can be cut into terms with texts between them, and there is one way to cut it. -/
namespace SceneFormula
open Source (ArgumentList nameOrigin separators unescape width)

/-- A call that starts at a byte of the source, where the term before it ends at `previous`: its
name starts behind the last separator but not before that end, and its list is closed by the
parenthesis at its own end. -/
structure WrittenCall.StartsAt (source : List Char) (previous start : Nat) (site : WrittenCall) :
    Prop where
  origin : start = max previous (nameOrigin source separators (start + width site.name))
  name : ∀ c ∈ site.name, isTextMark c = false
  member : ∀ member spaces, site.member = some (member, spaces) →
    ∀ c ∈ member, Callee.endsMember c = false
  close : (ArgumentList.readAt source (start + width site.head)).close =
    some (start + width site.head + width site.inside)

/-- A term that is accepted at a byte of the source, and the step that it becomes. The parameters of
a call are prepared, and a number is compiled, one level deeper. -/
inductive WrittenTerm.Accepted (context : Context) (source : List Char) (previous start : Nat) :
    WrittenTerm → TextStep → Prop
  | quoted {body : List Char} (h : Source.IsBody body) :
    Accepted context source previous start (.quoted body)
      (.literal (String.ofList (unescape body)))
  | call {site : WrittenCall} {target : Target} {parameters : List Expression}
    (hs : site.StartsAt source previous start)
    (ht : context.world.resolve .text site.receiver? site.function = some target)
    (hb : BindsFirst context.world (context.compilersAt 1) target.declarations
      (target.receivers ++ (ArgumentList.readAt source (start + width site.head)).arguments.map
        (String.ofList ·.text)) parameters) :
    Accepted context source previous start (.call site) (.call target.routine parameters)
  | number {site : WrittenCall} {form : NumericForm}
    (hs : site.StartsAt source previous start)
    (ht : context.world.resolve .text site.receiver? site.function = none)
    (hn : (context.compilersAt 1).number (String.ofList site.span) = .ok form) :
    Accepted context source previous start (.call site)
      (.number { context.expression (String.ofList site.span) with number := .ready form })

/-- A cut of the source into one accepted term or more. No mark stands outside the terms, and one
`+` between two of them. -/
structure TextCut.Divides (context : Context) (source : List Char) (cut : TextCut) : Prop where
  written : cut.written = source
  nonempty : cut.parts ≠ []
  gaps : ∀ part ∈ cut.parts, ∀ c ∈ part.gap, isTextMark c = false
  tail : ∀ c ∈ cut.tail, isTextMark c = false
  joined : ∀ part ∈ cut.parts.tail, part.gap.count '+' = 1
  terms : ∀ before part after, cut.parts = before ++ part :: after →
    part.term.Accepted context source (width (before.flatMap TextPart.written))
      (width (before.flatMap TextPart.written ++ part.gap)) part.step

/-- The list of a call closes at the end of the call if and only if it does so on its own. -/
private theorem close_iff {front inside rest : List Char} :
    (ArgumentList.readAt (front ++ (inside ++ ')' :: rest)) (width front)).close =
        some (width front + width inside) ↔
      (ArgumentList.read 0 (inside ++ [')'])).rest = some [] := by
  have hiff : (ArgumentList.read (width front) (inside ++ ')' :: rest)).rest = some rest ↔
      (ArgumentList.read 0 (inside ++ [')'])).rest = some [] := ArgumentList.read_close_iff
  rw [ArgumentList.readAt, Source.cut_width, ← hiff, ArgumentList.close]
  simp only
  constructor
  · intro h
    obtain ⟨behind, hr, hstop⟩ := Option.map_eq_some_iff.mp h
    obtain ⟨other, htext, hother⟩ := ArgumentList.resume_stop hr
    have hwidth : width inside = width other := by
      have he := hstop.symm.trans hother
      omega
    obtain ⟨-, hrest⟩ := Source.append_inj_of_width htext hwidth
    rwa [← (List.cons.inj hrest).2] at hr
  · intro h
    obtain ⟨other, htext, hother⟩ := ArgumentList.resume_stop h
    obtain rfl := List.append_cancel_right htext
    rw [h, Option.map_some]
    exact congrArg some hother

namespace WrittenCall
variable {front gap rest : List Char} {site : WrittenCall}

private theorem span_eq (site : WrittenCall) (rest : List Char) :
    site.span ++ rest = site.head ++ (site.inside ++ ')' :: rest) := by
  simp [span]

theorem startsAt_iff :
    site.StartsAt (front ++ gap ++ site.span ++ rest) (width front) (width (front ++ gap)) ↔
      (WrittenTerm.call site).Follows gap ∧ site.WellFormed := by
  obtain ⟨more, hmore⟩ : ∃ more, site.head = site.name ++ more := by
    rw [head]
    cases site.member with
    | none => exact ⟨_, rfl⟩
    | some member => exact ⟨'.' :: member.1 ++ List.replicate member.2 ' ' ++ ['('], by simp⟩
  have hstart : width (front ++ gap) = max (width front) (nameOrigin
      (front ++ gap ++ site.span ++ rest) separators (width (front ++ gap) + width site.name)) ↔
      (∀ c ∈ site.name, c ∉ separators) ∧ ∀ c ∈ gap.getLast?, c ∈ separators := by
    have hiff := @Source.eq_max_nameOrigin_iff front gap site.name
      (more ++ (site.inside ++ ')' :: rest))
    rw [← hiff, Source.width_append _ site.name, List.append_assoc _ site.span, span_eq, hmore]
    simp only [List.append_assoc]
  have hclose : (ArgumentList.readAt (front ++ gap ++ site.span ++ rest)
      (width (front ++ gap) + width site.head)).close =
        some (width (front ++ gap) + width site.head + width site.inside) ↔
      (ArgumentList.read 0 (site.inside ++ [')'])).rest = some [] := by
    have hiff := @close_iff (front ++ gap ++ site.head) site.inside rest
    rw [← hiff, List.append_assoc _ site.span, span_eq, ← Source.width_append,
      List.append_assoc _ site.head]
  constructor
  · intro h
    obtain ⟨hplain, hseam⟩ := hstart.mp h.origin
    exact ⟨hseam, fun c hc => ⟨hplain c hc, h.name c hc⟩, h.member, hclose.mp h.close⟩
  · rintro ⟨hseam, hw⟩
    exact ⟨hstart.mpr ⟨fun c hc => (hw.name c hc).1, hseam⟩, fun c hc => (hw.name c hc).2,
      hw.member, hclose.mpr hw.close⟩

/-- The arguments of a call are those of the list that is read in the source. -/
theorem map_arguments_readAt (hw : site.WellFormed) :
    (ArgumentList.readAt (front ++ gap ++ site.span ++ rest)
      (width (front ++ gap) + width site.head)).arguments.map (String.ofList ·.text) =
        site.arguments.map String.ofList := by
  rw [List.append_assoc _ site.span, span_eq, ← List.append_assoc _ site.head,
    ← Source.width_append, ArgumentList.readAt, Source.cut_width, arguments,
    ← ArgumentList.texts_read hw.close, ArgumentList.texts, List.map_map]
  rfl

end WrittenCall

/-- A term is accepted in a source if and only if it is on its own, and starts as a name must. -/
theorem WrittenTerm.accepted_iff {context : Context} {front gap rest : List Char}
    {term : WrittenTerm} {step : TextStep} :
    term.Accepted context (front ++ gap ++ term.span ++ rest) (width front) (width (front ++ gap))
        step ↔
      term.Follows gap ∧ term.Becomes context.world (context.compilersAt 1) step := by
  constructor
  · intro h
    cases h with
    | quoted h => exact ⟨trivial, .quoted h⟩
    | call hs ht hb =>
      obtain ⟨hf, hw⟩ := WrittenCall.startsAt_iff.mp hs
      exact ⟨hf, .call hw (.call ht ((WrittenCall.map_arguments_readAt hw) ▸ hb))⟩
    | number hs ht hn =>
      obtain ⟨hf, hw⟩ := WrittenCall.startsAt_iff.mp hs
      exact ⟨hf, .call hw (.number ht hn)⟩
  · rintro ⟨hf, h⟩
    cases h with
    | quoted h => exact .quoted h
    | call hw h =>
      have hs := (@WrittenCall.startsAt_iff front gap rest _).mpr ⟨hf, hw⟩
      cases h with
      | call ht hb => exact .call hs ht ((WrittenCall.map_arguments_readAt hw).symm ▸ hb)
      | number ht hn => exact .number hs ht hn

namespace TextCut
variable {context : Context} {source : List Char} {cut : TextCut}

theorem divides_iff :
    cut.Divides context source ↔
      cut.Holds context.world (context.compilersAt 1) ∧ cut.written = source ∧ cut.parts ≠ [] := by
  have hsource {before after : List TextPart} {part : TextPart}
      (hp : cut.parts = before ++ part :: after) :
      cut.written = before.flatMap TextPart.written ++ part.gap ++ part.term.span ++
        TextCut.written ⟨after, cut.tail⟩ := by
    simp [TextCut.written, hp, TextPart.written]
  constructor
  · intro h
    refine ⟨⟨fun part hp => ?_, h.joined, h.tail⟩, h.written, h.nonempty⟩
    obtain ⟨before, after, hsplit⟩ := List.append_of_mem hp
    have haccepted := h.terms before part after hsplit
    rw [← h.written, hsource hsplit] at haccepted
    obtain ⟨hf, hb⟩ := WrittenTerm.accepted_iff.mp haccepted
    exact ⟨h.gaps part hp, hf, hb⟩
  · rintro ⟨h, rfl, hne⟩
    refine ⟨rfl, hne, fun part hp => (h.parts part hp).gap, h.tail, h.joined,
      fun before part after hsplit => ?_⟩
    have hp := h.parts part (hsplit ▸ List.mem_append_right _ List.mem_cons_self)
    rw [hsource hsplit]
    exact WrittenTerm.accepted_iff.mpr ⟨hp.follows, hp.becomes⟩

end TextCut

namespace Context

/-- The parameters of the outermost text are compiled with the compilers of one level less. -/
theorem compileText_eq (context : Context) (raw : String) :
    context.compileText raw = TextForm.compileWith context (context.compilersAt 1) raw := rfl

/-- A text is accepted if and only if it can be cut into accepted terms, which give its steps in
order, and it can be cut in one way at most. -/
theorem compileText_eq_ok_iff (context : Context) (source : String) :
    (∀ form, context.compileText source = .ok form ↔
      ∃ cut : TextCut, cut.Divides context source.toList ∧ form.steps = cut.steps) ∧
    ∀ cut other : TextCut, cut.Divides context source.toList →
      other.Divides context source.toList → cut = other := by
  constructor
  · intro form
    rw [compileText_eq, TextForm.compileWith_eq_ok_iff]
    simp only [TextCut.divides_iff, and_assoc]
  · intro cut other hcut hother
    obtain ⟨hcut, hw, -⟩ := TextCut.divides_iff.mp hcut
    obtain ⟨hother, hwo, -⟩ := TextCut.divides_iff.mp hother
    exact hcut.unique hother (hw.trans hwo.symm)

def textSample : Context where
  world := .ofTables
    { entries :=
      [(⟨.text, .free, "Upper"⟩, ⟨⟨0⟩, [⟨.text, false⟩]⟩),
        (⟨.text, .object ⟨1⟩, "Name"⟩, ⟨⟨1⟩, [⟨.object, false⟩]⟩),
        (⟨.text, .component ⟨2⟩, "State"⟩,
          ⟨⟨2⟩, [⟨.object, false⟩, ⟨.automatism, false⟩, ⟨.expression, false⟩]⟩),
        (⟨.number, .object ⟨1⟩, "X"⟩, ⟨⟨3⟩, [⟨.object, false⟩]⟩),
        (⟨.number, .free, "Len"⟩, ⟨⟨4⟩, [⟨.text, false⟩]⟩)]
      nextId := 5 }
    { objects := [("Player", ⟨⟨1⟩, [⟨2⟩]⟩)]
      components := [("Physics", ⟨2⟩)] }
    {}

theorem compileText_eq_ok_iff_sample :
    ∃ form cut,
      textSample.compileText "\"x: \" + Upper(Player.Name(), 2) + Player.X()" = .ok form ∧
      cut.Divides textSample "\"x: \" + Upper(Player.Name(), 2) + Player.X()".toList ∧
      form.steps = cut.steps ∧
      ∀ other : TextCut,
        other.Divides textSample "\"x: \" + Upper(Player.Name(), 2) + Player.X()".toList →
          cut = other := by
  obtain ⟨form, h⟩ := exists_eq_ok (by decide +kernel :
    (textSample.compileText "\"x: \" + Upper(Player.Name(), 2) + Player.X()").toBool = true)
  obtain ⟨hiff, hunique⟩ := compileText_eq_ok_iff textSample
    "\"x: \" + Upper(Player.Name(), 2) + Player.X()"
  obtain ⟨cut, hcut, hsteps⟩ := (hiff form).mp h
  exact ⟨form, cut, h, hcut, hsteps, fun other => hunique cut other hcut⟩

end Context
end SceneFormula
