import SceneFormula.Proofs.Nesting
import SceneFormula.Proofs.Pieces

namespace SceneFormula
open Source (escape separators unescape)

namespace Source

def quoted (text : String) : String :=
  String.ofList (quote text.toList)

/-- Whether a text can be quoted: no backslash at its end would hide the closing quote. -/
def Quotable (text : String) : Prop :=
  text.toList.getLast? ≠ some '\\'

instance (text : String) : Decidable (Quotable text) :=
  inferInstanceAs (Decidable (_ ≠ _))

theorem Quotable.isBody {text : String} (h : Quotable text) : IsBody (escape text.toList) := by
  have hlast : text.toList.getLast?.getD '"' ≠ '\\' := by
    cases hl : text.toList.getLast? with
    | none => decide
    | some c => exact fun hc => h (hl.trans (congrArg some hc))
  exact (splitQuoted_quote_iff.mp (splitQuoted_escape hlast [])).2

/-- Taking the backslashes off the quotes leaves the last character as it is. -/
theorem getLast?_unescape (body : List Char) : (unescape body).getLast? = body.getLast? := by
  fun_induction unescape body with
  | case1 rest ih => simp [List.getLast?_cons, ih]
  | case2 c rest _ ih => simp [List.getLast?_cons, ih]
  | case3 => rfl

end Source
open Source (Quotable quoted)

def TextPart.ofLiteral (gap : List Char) (text : String) : TextPart :=
  ⟨gap, .quoted (escape text.toList), .literal text⟩

theorem TextPart.written_ofLiteral (gap : List Char) (text : String) :
    (ofLiteral gap text).written = gap ++ Source.quote text.toList := rfl

theorem TextPart.stands_ofLiteral {world : World} {compilers : Compilers} {gap : List Char}
    (hg : ∀ c ∈ gap, isTextMark c = false) {text : String} (h : Quotable text) :
    (ofLiteral gap text).Stands world compilers := by
  have hb : WrittenTerm.Becomes world compilers (.quoted (escape text.toList))
      (.literal (String.ofList (unescape (escape text.toList)))) := .quoted h.isBody
  rw [Source.unescape_escape, String.ofList_toList] at hb
  exact ⟨hg, trivial, hb⟩

def joinQuoted (texts : List String) : String :=
  String.ofList ([' ', '+', ' '].intercalate (texts.map fun text => Source.quote text.toList))

private theorem toList_joinQuoted (first : String) (others : List String) :
    (joinQuoted (first :: others)).toList =
      Source.quote first.toList ++
        others.flatMap fun text => [' ', '+', ' '] ++ Source.quote text.toList := by
  rw [joinQuoted, String.toList_ofList]
  induction others generalizing first with
  | nil => simp
  | cons next others ih =>
    have hnext := ih next
    rw [List.map_cons] at hnext
    rw [List.map_cons, List.map_cons, List.intercalate_cons_cons, hnext, List.flatMap_cons]
    simp only [List.append_assoc]

theorem TextForm.compileWith_joinQuoted (context : Context) (compilers : Compilers)
    {texts : List String} (hne : texts ≠ []) (h : ∀ text ∈ texts, Quotable text) :
    compileWith context compilers (joinQuoted texts) = .ok ⟨texts.map .literal⟩ := by
  obtain ⟨first, others, rfl⟩ := List.exists_cons_of_ne_nil hne
  let cut : TextCut :=
    ⟨.ofLiteral [] first :: others.map (.ofLiteral [' ', '+', ' ']), []⟩
  have hothers : ∀ part ∈ others.map (TextPart.ofLiteral [' ', '+', ' ']),
      part.Stands context.world compilers ∧ part.gap.count '+' = 1 := by
    intro part hp
    obtain ⟨text, ht, rfl⟩ := List.mem_map.mp hp
    exact ⟨TextPart.stands_ofLiteral (by simp [isTextMark, Callee.isMark])
      (h text (List.mem_cons_of_mem _ ht)), rfl⟩
  have hwritten : cut.written = (joinQuoted (first :: others)).toList := by
    rw [toList_joinQuoted, TextCut.written_cons]
    simp [TextCut.written, TextPart.written_ofLiteral, List.flatMap_map]
  refine compileWith_eq_ok_iff.mpr ⟨cut, ⟨?_, fun part hp => (hothers part hp).2, by simp [cut]⟩,
    hwritten, List.cons_ne_nil _ _, ?_⟩
  · have hfirst : (TextPart.ofLiteral [] first).Stands context.world compilers :=
      TextPart.stands_ofLiteral (by simp) (h first List.mem_cons_self)
    exact List.forall_mem_cons.mpr ⟨hfirst, fun part hp => (hothers part hp).1⟩
  · simp [cut, TextCut.steps, TextPart.ofLiteral, Function.comp_def]

/-- A text parameter whose text is quoted, once it is prepared. -/
def Expression.ofLiteral (world : World) (text : String) : Expression :=
  { Expression.ofRaw world (quoted text) with text := .ready ⟨[.literal text]⟩ }

private theorem BindsFirst.ofLiterals {world : World} {compilers : Compilers}
    (hc : ∀ text, Quotable text → compilers.text (quoted text) = .ok ⟨[.literal text]⟩)
    {declarations : List Declaration} (hd : ∀ declaration ∈ declarations,
      declaration.kind.treatment = .text) {texts : List String} (h : ∀ text ∈ texts, Quotable text)
    (hl : declarations.length = texts.length) :
    BindsFirst world compilers declarations (texts.map quoted)
      (texts.map (Expression.ofLiteral world)) := by
  induction declarations generalizing texts with
  | nil =>
    obtain rfl := List.eq_nil_of_length_eq_zero hl.symm
    exact .surplus
  | cons declaration declarations ih =>
    obtain ⟨text, texts, rfl⟩ := List.exists_cons_of_length_eq_add_one hl.symm
    refine .more ?_ (ih (fun other ho => hd other (List.mem_cons_of_mem _ ho))
      (fun other ho => h other (List.mem_cons_of_mem _ ho)) (Nat.succ.inj hl))
    rw [hd declaration List.mem_cons_self]
    exact .text (hc text (h text List.mem_cons_self))

def callQuoted (name : String) (texts : List String) : String :=
  String.ofList (name.toList ++
    Source.parenthesized 0 (texts.map fun text => Source.quote text.toList))

private theorem TextForm.compileWith_callQuoted (context : Context) (compilers : Compilers)
    (hc : ∀ text, Quotable text → compilers.text (quoted text) = .ok ⟨[.literal text]⟩)
    {name : String} (hname : ∀ c ∈ name.toList, c ∉ separators ∧ isTextMark c = false)
    {signature : Signature} (hf : context.world.function? .text .free name = some signature)
    (hd : ∀ declaration ∈ signature.parameters, declaration.kind.treatment = .text)
    {texts : List String} (hne : texts ≠ []) (h : ∀ text ∈ texts, Quotable text)
    (hl : signature.parameters.length = texts.length) :
    compileWith context compilers (callQuoted name texts) =
      .ok ⟨[.call (.free signature.id) (texts.map (Expression.ofLiteral context.world))]⟩ := by
  let quotes := texts.map fun text => Source.quote text.toList
  let site : WrittenCall := ⟨name.toList, none, Source.listed 0 quotes⟩
  have hbalanced : ∀ quote ∈ quotes, Source.ArgumentList.Balanced 0 quote := by
    intro quote hq
    obtain ⟨text, ht, rfl⟩ := List.mem_map.mp hq
    exact .quote (h text ht)
  have hquotes : quotes ≠ [] := by simpa [quotes] using hne
  obtain ⟨hread, hclose⟩ := Source.ArgumentList.texts_read_listed 0 hquotes hbalanced []
  have harguments : site.arguments.map String.ofList = texts.map quoted := by
    rw [WrittenCall.arguments, hread]
    obtain ⟨first, others, rfl⟩ := List.exists_cons_of_ne_nil hne
    simp [quotes, Source.pieces, quoted, Function.comp_def]
  have hbecomes : site.Becomes context.world compilers
      (.call (.free signature.id) (texts.map (Expression.ofLiteral context.world))) := by
    have htarget : context.world.resolve .text site.receiver? site.function =
        some ⟨.free signature.id, signature.parameters, []⟩ := by
      simp [site, WrittenCall.receiver?, WrittenCall.function, World.resolve, World.freeTarget?, hf]
    refine .call htarget ?_
    rw [List.nil_append, harguments]
    exact .ofLiterals hc hd h hl
  let part : TextPart := ⟨[], .call site,
    .call (.free signature.id) (texts.map (Expression.ofLiteral context.world))⟩
  have hstands : part.Stands context.world compilers :=
    ⟨by simp [part], by simp [part, WrittenTerm.Follows],
      .call ⟨hname, by simp [site], hclose⟩ hbecomes⟩
  refine compileWith_eq_ok_iff.mpr ⟨⟨[part], []⟩,
    ⟨by simpa using hstands, by simp, by simp⟩, ?_, by simp, rfl⟩
  simp [TextCut.written, TextPart.written, WrittenTerm.span, WrittenCall.span, WrittenCall.head,
    part, site, callQuoted, Source.parenthesized, quotes]

/-- A literal at any level of a form can be quoted. -/
theorem Context.Compiles.quotable {context : Context} {source text : String} {form : Form}
    {inner : TextForm} (h : context.Compiles source form) (hw : form.Within (.text inner))
    (ht : .literal text ∈ inner.steps) : Quotable text := by
  obtain ⟨raw, hcompiles, -⟩ := h.within hw
  obtain ⟨cut, hcut, -, -, hsteps⟩ := TextForm.compileWith_eq_ok_iff.mp hcompiles
  rw [hsteps] at ht
  obtain ⟨part, hp, hstep⟩ := List.mem_map.mp ht
  have hbecomes := (hcut.parts part hp).becomes
  rw [hstep] at hbecomes
  generalize part.term = term at hbecomes
  cases hbecomes with
  | quoted hb =>
    rw [Quotable, String.toList_ofList, Source.getLast?_unescape]
    exact hb.last
  | call _ hb => cases hb

namespace Context

/-- Texts that end in no backslash are read back from their quoted forms, whatever they hold: joined
by `+`, and as the arguments of a function that declares as many text parameters. No other text is
a literal at any level of any form. -/
theorem compileText_literals (context : Context) :
    (∀ texts : List String, texts ≠ [] → (∀ text ∈ texts, Quotable text) →
      context.compileText (joinQuoted texts) = .ok ⟨texts.map .literal⟩) ∧
    (∀ (texts : List String) (name : String) (signature : Signature),
      texts ≠ [] → (∀ text ∈ texts, Quotable text) →
      (∀ c ∈ name.toList, c ∉ separators ∧ isTextMark c = false) →
      context.world.function? .text .free name = some signature →
      signature.parameters.length = texts.length →
      (∀ declaration ∈ signature.parameters, declaration.kind.treatment = .text) →
      1 ≤ context.options.maxDepth.toNat →
      context.compileText (callQuoted name texts) =
        .ok ⟨[.call (.free signature.id) (texts.map (Expression.ofLiteral context.world))]⟩) ∧
    (∀ text : String,
      (∃ source form inner, context.Compiles source form ∧ form.Within (.text inner) ∧
        .literal text ∈ inner.steps) ↔ Quotable text) := by
  have hjoined (compilers : Compilers) (texts : List String) (hne : texts ≠ [])
      (h : ∀ text ∈ texts, Quotable text) :
      TextForm.compileWith context compilers (joinQuoted texts) = .ok ⟨texts.map .literal⟩ :=
    TextForm.compileWith_joinQuoted context compilers hne h
  refine ⟨hjoined _, ?_, fun text => ⟨?_, fun h => ?_⟩⟩
  · intro texts name signature hne h hname hf hl hd hdepth
    refine TextForm.compileWith_callQuoted context (context.compilersAt 1)
      (fun text ht => ?_) hname hf hd hne h hl
    obtain ⟨depth, hdepth⟩ := Nat.exists_eq_add_of_le' hdepth
    rw [compilersAt, Nat.add_sub_cancel, hdepth]
    exact TextForm.compileWith_quote context _ ht 0
  · rintro ⟨source, form, inner, hcompiles, hw, ht⟩
    exact hcompiles.quotable hw ht
  · have hc := hjoined (context.compilersAt 1) [text] (by simp) (by simpa using h)
    exact ⟨joinQuoted [text], .text ⟨[.literal text]⟩, _, hc, .self, List.mem_singleton_self _⟩

theorem compileText_literals_sample :
    textSample.compileText (joinQuoted ["say \"a, b\"", "(x + \\y"]) =
        .ok ⟨[.literal "say \"a, b\"", .literal "(x + \\y"]⟩ ∧
      textSample.compileText (callQuoted "Upper" ["\\\")"]) =
        .ok ⟨[.call (.free ⟨0⟩) [Expression.ofLiteral textSample.world "\\\")"]]⟩ ∧
      ¬ ∃ source form inner, textSample.Compiles source form ∧ form.Within (.text inner) ∧
        .literal "C:\\" ∈ inner.steps := by
  obtain ⟨hjoined, hcall, hquotable⟩ := compileText_literals textSample
  have hname : ∀ c ∈ "Upper".toList, c ∉ separators ∧ isTextMark c = false := by
    simp [separators, isTextMark, Callee.isMark]
  refine ⟨hjoined _ (by decide) (by decide), ?_, fun h => ?_⟩
  · exact hcall ["\\\")"] "Upper" ⟨⟨0⟩, [⟨.text, false⟩]⟩ (by decide) (by decide) hname rfl rfl
      (by decide) (by decide)
  · exact absurd ((hquotable _).mp h) (by decide)

end Context
end SceneFormula
