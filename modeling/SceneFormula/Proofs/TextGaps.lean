import SceneFormula.Proofs.TextLanguage

namespace SceneFormula
open Source (separators)

namespace TextCut

def outside (cut : TextCut) : List Char :=
  cut.parts.flatMap (·.gap) ++ cut.tail

/-- Nothing is written outside the terms but spaces, and each `+` there joins two terms. -/
structure Tidy (cut : TextCut) : Prop where
  before : ∀ part ∈ cut.parts.head?, ∀ c ∈ part.gap, c = ' '
  between : ∀ part ∈ cut.parts.tail, ∀ c ∈ part.gap, c = ' ' ∨ c = '+'
  behind : ∀ c ∈ cut.tail, c = ' '

structure Passable (cut : TextCut) : Prop where
  gaps : ∀ part ∈ cut.parts, ∀ c ∈ part.gap, isTextMark c = false
  follows : ∀ part ∈ cut.parts, part.term.Follows part.gap
  joined : ∀ part ∈ cut.parts.tail, part.gap.count '+' = 1
  tail : ∀ c ∈ cut.tail, isTextMark c = false

def terms (cut : TextCut) : List (WrittenTerm × TextStep) :=
  cut.parts.map fun part => (part.term, part.step)

variable {world : World} {compilers : Compilers} {cut other : TextCut}

/-- Whether a text can be cut into terms hangs on these and on the texts between them apart. -/
theorem Holds.of_terms (h : cut.Holds world compilers) (ho : other.Passable)
    (ht : other.terms = cut.terms) : other.Holds world compilers := by
  refine ⟨fun part hp => ⟨ho.gaps part hp, ho.follows part hp, ?_⟩, ho.joined, ho.tail⟩
  have hmem : (part.term, part.step) ∈ cut.terms :=
    ht ▸ List.mem_map_of_mem (f := fun part => (part.term, part.step)) hp
  obtain ⟨own, hown, he⟩ := List.mem_map.mp hmem
  obtain ⟨hterm, hstep⟩ := Prod.mk.inj he
  exact hterm ▸ hstep ▸ (h.parts own hown).becomes

theorem count_gaps {parts : List TextPart} (h : ∀ part ∈ parts, part.gap.count '+' = 1) :
    (parts.flatMap (·.gap)).count '+' = parts.length := by
  induction parts with
  | nil => rfl
  | cons part parts ih =>
    obtain ⟨hpart, hparts⟩ := List.forall_mem_cons.mp h
    rw [List.flatMap_cons, List.count_append, hpart, ih hparts, List.length_cons, Nat.add_comm]

/-- A text is tidy if it holds only spaces and plus signs outside its terms, one less of these than
there are terms. -/
theorem tidy_iff (hj : ∀ part ∈ cut.parts.tail, part.gap.count '+' = 1) (hn : cut.parts ≠ []) :
    cut.Tidy ↔
      (∀ c ∈ cut.outside, c = ' ' ∨ c = '+') ∧ cut.outside.count '+' + 1 = cut.parts.length := by
  obtain ⟨_ | ⟨first, parts⟩, tail⟩ := cut
  · exact absurd rfl hn
  have hcount : (outside ⟨first :: parts, tail⟩).count '+' =
      first.gap.count '+' + parts.length + tail.count '+' := by
    have hparts : ∀ part ∈ parts, part.gap.count '+' = 1 := hj
    rw [outside, List.flatMap_cons, List.count_append, List.count_append, count_gaps hparts]
  rw [hcount, List.length_cons]
  constructor
  · intro h
    have hfirst : first.gap.count '+' = 0 :=
      List.count_eq_zero.mpr fun hc => by cases h.before first rfl '+' hc
    have htail : tail.count '+' = 0 :=
      List.count_eq_zero.mpr fun hc => by cases h.behind '+' hc
    refine ⟨fun c hc => ?_, by omega⟩
    rcases List.mem_append.mp hc with hc | hc
    · obtain ⟨part, hp, hin⟩ := List.mem_flatMap.mp hc
      rcases List.mem_cons.mp hp with rfl | hp
      · exact .inl (h.before _ rfl c hin)
      · exact h.between part hp c hin
    · exact .inl (h.behind c hc)
  · rintro ⟨hall, hplus⟩
    have space {text : List Char} (hsub : text ⊆ outside ⟨first :: parts, tail⟩)
        (hzero : text.count '+' = 0) : ∀ c ∈ text, c = ' ' := by
      intro c hc
      rcases hall c (hsub hc) with hc | rfl
      · exact hc
      · exact absurd hc (List.count_eq_zero.mp hzero)
    have hgap (part : TextPart) (hp : part ∈ first :: parts) :
        part.gap ⊆ outside ⟨first :: parts, tail⟩ :=
      fun c hc => List.mem_append_left _ (List.mem_flatMap_of_mem hp hc)
    refine ⟨fun part hp => ?_, fun part hp c hc => ?_, ?_⟩
    · obtain rfl := Option.some.inj hp
      exact space (hgap _ List.mem_cons_self) (by omega)
    · exact hall c (hgap part (List.mem_cons_of_mem _ hp) hc)
    · have hzero : tail.count '+' = 0 := by omega
      exact space (List.subset_append_right _ _) hzero

end TextCut

namespace Context
variable {context : Context}

/-- An accepted text holds nothing but its terms, the plus signs that join them and spaces exactly
where the characters outside its terms are spaces and as many plus signs as are needed. Any other
text without marks may stand there as well, and does not change the result. -/
theorem compileText_tidy_iff {source : String} {form : TextForm}
    (h : context.compileText source = .ok form) :
    ∃ cut : TextCut, cut.Divides context source.toList ∧ form.steps = cut.steps ∧
      (cut.Tidy ↔ (∀ c ∈ cut.outside, c = ' ' ∨ c = '+') ∧
        cut.outside.count '+' + 1 = cut.parts.length) ∧
      ∀ other : TextCut, other.Passable → other.terms = cut.terms →
        context.compileText (String.ofList other.written) = .ok form := by
  rw [compileText_eq, TextForm.compileWith_eq_ok_iff] at h
  obtain ⟨cut, hcut, hw, hne, hsteps⟩ := h
  refine ⟨cut, TextCut.divides_iff.mpr ⟨hcut, hw, hne⟩, hsteps, TextCut.tidy_iff hcut.joined hne,
    fun other ho ht => ?_⟩
  have hparts : other.parts.map (·.step) = cut.parts.map (·.step) := by
    have hsecond := congrArg (List.map Prod.snd) ht
    simpa [TextCut.terms, Function.comp_def] using hsecond
  rw [compileText_eq, TextForm.compileWith_eq_ok_iff]
  refine ⟨other, hcut.of_terms ho ht, String.toList_ofList.symm, fun hnil => hne ?_,
    hsteps.trans hparts.symm⟩
  rw [hnil, List.map_nil] at hparts
  exact List.map_eq_nil_iff.mp hparts.symm

theorem compileText_tidy_iff_sample :
    ∃ (form : TextForm) (cut : TextCut),
      textSample.compileText "\"x: \" + Player.X()" = .ok form ∧
      cut.Divides textSample "\"x: \" + Player.X()".toList ∧ form.steps = cut.steps ∧
      (cut.Tidy ↔ (∀ c ∈ cut.outside, c = ' ' ∨ c = '+') ∧
        cut.outside.count '+' + 1 = cut.parts.length) ∧
      ∀ other : TextCut, other.Passable → other.terms = cut.terms →
        textSample.compileText (String.ofList other.written) = .ok form := by
  obtain ⟨form, h⟩ := exists_eq_ok (by decide +kernel :
    (textSample.compileText "\"x: \" + Player.X()").toBool = true)
  obtain ⟨cut, hcut, hsteps, htidy, hother⟩ := compileText_tidy_iff h
  exact ⟨form, cut, h, hcut, hsteps, htidy, hother⟩

/-- A word in front of a quoted text is passed over. -/
theorem not_compileText_tidy :
    ¬ ∀ (source : String) (form : TextForm), textSample.compileText source = .ok form →
      ∀ cut : TextCut, cut.Divides textSample source.toList → cut.Tidy := by
  intro h
  obtain ⟨form, hform⟩ := exists_eq_ok (by decide +kernel :
    (textSample.compileText "hello \"a\"").toBool = true)
  have hbody : Source.IsBody ['a'] := by
    refine ⟨fun before after he => ?_, by decide⟩
    have hquote : '"' ∈ ['a'] := he ▸ List.mem_append_right _ List.mem_cons_self
    exact absurd hquote (by decide)
  have hcut : TextCut.Divides textSample "hello \"a\"".toList
      ⟨[⟨"hello ".toList, .quoted ['a'], .literal "a"⟩], []⟩ := by
    refine TextCut.divides_iff.mpr ⟨⟨?_, by simp, by simp⟩, rfl, by simp⟩
    rintro part (_ | ⟨_, ⟨⟩⟩)
    have hplain : "hello ".toList.all (!isTextMark ·) = true := by decide
    exact ⟨by simpa using hplain, trivial, .quoted hbody⟩
  exact absurd ((h _ form hform _ hcut).before _ rfl 'h' (by decide)) (by decide)

end Context
end SceneFormula
