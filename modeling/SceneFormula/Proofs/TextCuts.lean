import SceneFormula.Proofs.WrittenTerms

/-! How a text expression is cut into its terms and the texts between them, told without offsets. A
text is accepted if and only if there is such a cut, and there is never more than one. -/
namespace SceneFormula
open Source (ArgumentList separators splitQuoted)

structure TextPart where
  gap : List Char
  term : WrittenTerm
  step : TextStep

def TextPart.written (part : TextPart) : List Char :=
  part.gap ++ part.term.span

/-- A part whose term starts at the first mark of its text, or at the name before that mark. -/
structure TextPart.Stands (world : World) (compilers : Compilers) (part : TextPart) : Prop where
  gap : ∀ c ∈ part.gap, isTextMark c = false
  follows : part.term.Follows part.gap
  becomes : part.term.Becomes world compilers part.step

structure TextCut where
  parts : List TextPart
  tail : List Char

namespace TextCut

def written (cut : TextCut) : List Char :=
  cut.parts.flatMap TextPart.written ++ cut.tail

def steps (cut : TextCut) : List TextStep :=
  cut.parts.map (·.step)

/-- A cut into terms that are joined by one `+` each, with no mark between them. -/
structure Holds (world : World) (compilers : Compilers) (cut : TextCut) : Prop where
  parts : ∀ part ∈ cut.parts, part.Stands world compilers
  joined : ∀ part ∈ cut.parts.tail, part.gap.count '+' = 1
  tail : ∀ c ∈ cut.tail, isTextMark c = false

theorem written_cons (part : TextPart) (parts : List TextPart) (tail : List Char) :
    written ⟨part :: parts, tail⟩ = part.written ++ written ⟨parts, tail⟩ := by
  rw [written, List.flatMap_cons, List.append_assoc]
  rfl

theorem Holds.of_cons {world : World} {compilers : Compilers} {part : TextPart}
    {parts : List TextPart} {tail : List Char} (h : Holds world compilers ⟨part :: parts, tail⟩) :
    part.Stands world compilers ∧ Holds world compilers ⟨parts, tail⟩ ∧
      ∀ next ∈ parts.head?, next.gap.count '+' = 1 :=
  ⟨h.parts part List.mem_cons_self,
    ⟨fun other ho => h.parts other (List.mem_cons_of_mem _ ho),
      fun other ho => h.joined other (List.mem_of_mem_tail ho), h.tail⟩,
    fun next hn => h.joined next (List.mem_of_mem_head? hn)⟩

theorem Holds.cons {world : World} {compilers : Compilers} {part : TextPart}
    {parts : List TextPart} {tail : List Char} (hp : part.Stands world compilers)
    (h : Holds world compilers ⟨parts, tail⟩)
    (hj : ∀ next ∈ parts.head?, next.gap.count '+' = 1) :
    Holds world compilers ⟨part :: parts, tail⟩ := by
  refine ⟨List.forall_mem_cons.mpr ⟨hp, h.parts⟩, fun other ho => ?_, h.tail⟩
  cases parts with
  | nil => cases ho
  | cons next parts =>
    rcases List.mem_cons.mp ho with rfl | ho
    · exact hj _ rfl
    · exact h.joined other ho

end TextCut

theorem isTextMark_eq_false {c : Char} :
    isTextMark c = false ↔ Callee.isMark c = false ∧ c ≠ '"' := by
  simp [isTextMark]

namespace WrittenCall

def callee (gap : List Char) (site : WrittenCall) (rest : List Char) : Callee :=
  ⟨gap, site.name, site.member.map (·.1),
    List.replicate ((site.member.map (·.2)).getD 0) ' ' ++ '(' :: (site.inside ++ ')' :: rest)⟩

theorem site_callee (gap : List Char) (site : WrittenCall) (rest : List Char) :
    (site.callee gap rest).site ((site.member.map (·.2)).getD 0) site.inside = site := by
  obtain ⟨name, member, inside⟩ := site
  cases member <;> rfl

theorem WellFormed.splits {site : WrittenCall} (hw : site.WellFormed) {gap : List Char}
    (hg : ∀ c ∈ gap, isTextMark c = false) (hf : (WrittenTerm.call site).Follows gap)
    (rest : List Char) : (site.callee gap rest).Splits (gap ++ site.span ++ rest) := by
  refine ⟨?_, fun c hc => ?_, fun c hc => (hw.name c hc).1, hf, fun hn => ?_, fun member hm => ?_⟩
  · rw [WrittenCall.span, WrittenCall.head, callee, Callee.written]
    cases site.member <;> simp
  · rcases List.mem_append.mp hc with hc | hc
    · exact (isTextMark_eq_false.mp (hg c hc)).1
    · exact (isTextMark_eq_false.mp (hw.name c hc).2).1
  · refine ⟨site.inside ++ ')' :: rest, ?_⟩
    rw [callee, Option.map_eq_none_iff.mp hn]
    rfl
  · obtain ⟨⟨other, spaces⟩, ho, rfl⟩ := Option.map_eq_some_iff.mp hm
    refine ⟨hw.member other spaces ho, ?_⟩
    rw [callee, ho]
    cases spaces <;> simp [Callee.endsMember, List.replicate_succ]

end WrittenCall

/-- A mark ends the name of a call. -/
theorem Callee.Splits.exists_mark {text : List Char} {callee : Callee} (hs : callee.Splits text) :
    ∃ mark after, isMark mark = true ∧ callee.lead ++ callee.name ++ mark :: after = text := by
  rw [← hs.text, written]
  cases hm : callee.member with
  | none =>
    obtain ⟨after, ha⟩ := hs.bare hm
    exact ⟨'(', after, rfl, by simp [ha]⟩
  | some member => exact ⟨'.', member ++ callee.tail, rfl, by simp⟩

def WrittenTerm.front : WrittenTerm → List Char
  | quoted _ => []
  | call site => site.name

namespace TextPart.Stands
variable {world : World} {compilers : Compilers} {part other : TextPart}

/-- The first mark behind the text before a term is the one that starts it or ends its name. -/
theorem cut (h : part.Stands world compilers) (rest : List Char) :
    ∃ mark behind, part.term.span ++ rest = part.term.front ++ mark :: behind ∧
      (part.written ++ rest).takeWhile (!isTextMark ·) = part.gap ++ part.term.front ∧
      (part.written ++ rest).dropWhile (!isTextMark ·) = mark :: behind ∧
      (mark = '"' ↔ ∃ body, part.term = .quoted body) := by
  obtain ⟨gap, term, step⟩ := part
  obtain ⟨mark, behind, hmark, hspan, hfront, hquote⟩ : ∃ mark behind, isTextMark mark = true ∧
      term.span ++ rest = term.front ++ mark :: behind ∧
      (∀ c ∈ term.front, isTextMark c = false) ∧ (mark = '"' ↔ ∃ body, term = .quoted body) := by
    cases h.becomes with
    | @quoted body _ =>
      exact ⟨'"', body ++ '"' :: rest, rfl, by simp [WrittenTerm.span, WrittenTerm.front],
        by simp [WrittenTerm.front], by simp⟩
    | @call site _ hw _ =>
      have hname : ∀ c ∈ site.name, isTextMark c = false := fun c hc => (hw.name c hc).2
      rw [WrittenTerm.span, WrittenTerm.front, WrittenCall.span, WrittenCall.head]
      cases site.member with
      | none => exact ⟨'(', site.inside ++ ')' :: rest, rfl, by simp, hname, by simp⟩
      | some member =>
        exact ⟨'.', member.1 ++ List.replicate member.2 ' ' ++ '(' :: (site.inside ++ ')' :: rest),
          rfl, by simp, hname, by simp⟩
  have hall : ∀ c ∈ gap ++ term.front, (!isTextMark c) = true := by
    intro c hc
    rcases List.mem_append.mp hc with hc | hc
    · simp [h.gap c hc]
    · simp [hfront c hc]
  refine ⟨mark, behind, hspan, ?_, ?_, hquote⟩
  · rw [written, List.append_assoc, hspan, ← List.append_assoc, List.takeWhile_append_of_pos hall]
    simp [hmark]
  · rw [written, List.append_assoc, hspan, ← List.append_assoc, List.dropWhile_append_of_pos hall]
    simp [hmark]

/-- All that stands before the first mark of a part and is no `+` of its gap is no `+`. -/
theorem count_front (h : part.Stands world compilers) :
    (part.gap ++ part.term.front).count '+' = part.gap.count '+' := by
  obtain ⟨gap, term, step⟩ := part
  rw [List.count_append, Nat.add_eq_left, List.count_eq_zero]
  cases h.becomes with
  | quoted => simp [WrittenTerm.front]
  | call hw _ => exact fun hc => (hw.name _ hc).1 (by decide)

end TextPart.Stands

namespace TextTerm
variable {context : Context} {compilers : Compilers}

theorem read?_eq_none_iff {offset : Nat} {text : List Char} :
    read? context compilers offset text = none ↔ ∀ c ∈ text, isTextMark c = false := by
  obtain ⟨gap, behind, rfl, ht, hd, hgap, hmark⟩ := exists_cut isTextMark text
  simp only [read?, hd, ht]
  cases behind with
  | nil => simpa using hgap
  | cons mark behind =>
    have hm : isTextMark mark = true := hmark mark rfl
    refine ⟨fun h => ?_, fun h => ?_⟩
    · split at h
      · simp_all
      · cases h
      · rename_i hquote
        have hne : mark ≠ '"' := fun he => hquote behind (by rw [he])
        have hn := Callee.next?_eq_none_iff.mp (Option.map_eq_none_iff.mp h) mark (by simp)
        rw [isTextMark_eq_false.mpr ⟨hn, hne⟩] at hm
        cases hm
    · rw [h mark (by simp)] at hm
      cases hm

/-- What is read as a part of a text is one. -/
theorem exists_part {offset : Nat} {text : List Char} {term : TextTerm}
    (h : read? context compilers offset text = some (.ok term)) :
    ∃ part : TextPart, part.Stands context.world compilers ∧ part.step = term.step ∧
      part.written ++ term.rest = text := by
  obtain ⟨gap, behind, rfl, ht, hd, hgap, hmark⟩ := exists_cut isTextMark text
  simp only [read?, hd, ht] at h
  split at h
  · cases h
  · rename_i inside
    rw [Option.some.injEq, literal] at h
    split at h
    · cases h
    · rename_i body rest hs
      obtain rfl := Except.ok.inj h
      obtain ⟨rfl, hbody⟩ := Source.splitQuoted_quote_iff.mp hs
      exact ⟨⟨gap, .quoted body, _⟩, ⟨hgap, trivial, .quoted hbody⟩, rfl,
        by simp [TextPart.written, WrittenTerm.span]⟩
  · rename_i hnil hquote
    obtain ⟨callee, hn, hc⟩ := Option.map_eq_some_iff.mp h
    have hs := Callee.next?_eq_some_iff.mp hn
    -- The first mark is no quote, so that the name before it ends where the gap does.
    have hreach : callee.lead ++ callee.name = gap := by
      obtain ⟨mark, after, hm, htext⟩ := hs.exists_mark
      refine (append_unique hs.unmarked (fun c hc => (isTextMark_eq_false.mp (hgap c hc)).1)
        (fun c hc => ?_) (fun c hc => ?_) htext).1
      · obtain rfl := Option.some.inj hc
        exact hm
      · have hne : c ≠ '"' := by
          rintro rfl
          obtain ⟨inside, rfl⟩ := List.head?_eq_some_iff.mp hc
          exact hquote inside rfl
        simpa [isTextMark, hne] using hmark c hc
    have hplain : ∀ c ∈ callee.lead ++ callee.name, isTextMark c = false := hreach ▸ hgap
    unfold ofCallee at hc
    split at hc
    · cases hc
    · rename_i list hopen
      split at hc
      · cases hc
      · rename_i rest hrest
        split at hc
        · cases hc
        · rename_i step hstep
          obtain rfl := Except.ok.inj hc
          obtain ⟨spaces, tail, htail, rfl⟩ := ArgumentList.open?_eq_some_iff.mp hopen
          obtain ⟨inside, rfl, -⟩ := ArgumentList.resume_stop hrest
          have hclose := ArgumentList.read_close_iff.mp hrest
          refine ⟨⟨callee.lead, .call (callee.site spaces inside), step⟩,
            ⟨fun c hc => hplain c (List.mem_append_left _ hc), hs.seam,
              .call ⟨fun c hc => ⟨hs.plain c hc, hplain c (List.mem_append_right _ hc)⟩,
                hs.site_member, hclose⟩
              ((ofList_eq_ok_iff hs htail (ArgumentList.texts_read hclose)).mp hstep)⟩, rfl, ?_⟩
          rw [← hs.lead_append_head htail inside]
          simp [TextPart.written, WrittenTerm.span, WrittenCall.span, Callee.site]

/-- A call is read where it stands, with any text behind it. -/
private theorem exists_ofCallee {gap text rest : List Char} {site : WrittenCall} {step : TextStep}
    (hs : (site.callee gap rest).Splits text) (hw : site.WellFormed)
    (hb : site.Becomes context.world compilers step) (nameStart : Nat) :
    ∃ next, ofCallee context compilers nameStart (site.callee gap rest) =
      .ok ⟨step, next, rest⟩ := by
  obtain ⟨list, hopen, hlist, htexts⟩ : ∃ list,
      ArgumentList.open? (nameEnd nameStart (site.callee gap rest)) (site.callee gap rest).tail =
        some list ∧ list.rest = some rest ∧ list.texts = site.arguments :=
    ⟨_, ArgumentList.open?_eq_some_iff.mpr ⟨_, _, rfl, rfl⟩,
      ArgumentList.read_close_iff.mpr hw.close, ArgumentList.texts_read hw.close⟩
  have hsite := site.site_callee gap rest
  have hstep : ofList context compilers nameStart (site.callee gap rest) list rest = .ok step :=
    (ofList_eq_ok_iff hs rfl (hsite.symm ▸ htexts)).mpr (hsite.symm ▸ hb)
  exact ⟨list.stop + 1, by simp only [ofCallee, hopen, hlist, hstep]⟩

/-- A part is read where it stands, with any text behind it. -/
theorem exists_read? {part : TextPart} (h : part.Stands context.world compilers) (offset : Nat)
    (rest : List Char) :
    ∃ next, read? context compilers offset (part.written ++ rest) =
      some (.ok ⟨part.step, next, rest⟩) := by
  obtain ⟨mark, behind, hspan, -, hd, hquote⟩ := h.cut rest
  obtain ⟨gap, term, step⟩ := part
  cases h.becomes with
  | @quoted body hbody =>
    obtain rfl := hquote.mpr ⟨body, rfl⟩
    obtain rfl : body ++ '"' :: rest = behind := by
      simpa [WrittenTerm.span, WrittenTerm.front] using hspan
    have hs : splitQuoted '"' (body ++ '"' :: rest) = some (body, rest) :=
      Source.splitQuoted_quote_iff.mpr ⟨rfl, hbody⟩
    simp only [read?, hd, literal, hs]
    exact ⟨_, rfl⟩
  | @call site _ hw hb =>
    have hs := hw.splits h.gap h.follows rest
    have hn : Callee.next? (TextPart.written ⟨gap, .call site, step⟩ ++ rest) =
      some (site.callee gap rest) := Callee.next?_eq_some_iff.mpr hs
    have hne : mark ≠ '"' := fun he => by cases (hquote.mp he).choose_spec
    obtain ⟨next, hcallee⟩ := exists_ofCallee hs hw hb (offset + Source.width gap)
    refine ⟨next, ?_⟩
    simp only [read?, hd]
    split
    · rename_i he
      cases he
    · rename_i he
      exact absurd (List.cons.inj he).1 hne
    · rw [hn]
      exact congrArg some hcallee

/-- Between a part and the next one stands exactly one `+`. -/
theorem joinFault?_eq_none_iff {part : TextPart} (h : part.Stands context.world compilers)
    (offset : Nat) (rest : List Char) :
    joinFault? offset (part.written ++ rest) = none ↔ part.gap.count '+' = 1 := by
  obtain ⟨mark, behind, -, ht, hd, -⟩ := h.cut rest
  rw [← h.count_front]
  simp only [joinFault?, ht, hd, List.isEmpty_cons, Bool.false_eq_true, if_false]
  generalize part.gap ++ part.term.front = gap
  obtain ⟨before, after, rfl, -, hafter, hbefore, hplus⟩ := exists_cut (· == '+') gap
  have hnone : before.count '+' = 0 := by
    rw [List.count_eq_zero]
    exact fun hc => by cases hbefore '+' hc
  rw [List.count_append, hnone, Nat.zero_add]
  have hdrop : (before ++ after).dropWhile (· != '+') = after := hafter
  rw [hdrop]
  cases after with
  | nil => simp
  | cons c more =>
    obtain rfl : c = '+' := by simpa using hplus c rfl
    simp [List.count_eq_zero]

theorem joinFault?_of_unmarked {text : List Char} (h : ∀ c ∈ text, isTextMark c = false)
    (offset : Nat) : joinFault? offset text = none := by
  have hd : text.dropWhile (!isTextMark ·) = [] :=
    List.dropWhile_eq_nil_iff.mpr fun c hc => by simp [h c hc]
  simp [joinFault?, hd]

private theorem readAll_of_none {offset : Nat} {text : List Char}
    (h : read? context compilers offset text = none) :
    readAll context compilers offset text = .ok [] := by
  rw [readAll]
  split
  · rfl
  · rename_i fault hf
    rw [h] at hf
    cases hf
  · rename_i term hf
    rw [h] at hf
    cases hf

private theorem readAll_of_some {offset : Nat} {text : List Char} {term : TextTerm}
    {others : List TextStep} (h : read? context compilers offset text = some (.ok term))
    (hj : joinFault? term.next term.rest = none)
    (ho : readAll context compilers term.next term.rest = .ok others) :
    readAll context compilers offset text = .ok (term.step :: others) := by
  rw [readAll]
  split
  · rename_i hf
    rw [h] at hf
    cases hf
  · rename_i fault hf
    rw [h] at hf
    cases hf
  · rename_i found hf
    obtain rfl := Except.ok.inj (Option.some.inj (h.symm.trans hf))
    simp only [hj, ho]

/-- The steps of a text are those of the parts that it can be cut into. -/
theorem readAll_eq_ok_iff {offset : Nat} {text : List Char} {steps : List TextStep} :
    readAll context compilers offset text = .ok steps ↔
      ∃ cut : TextCut, cut.Holds context.world compilers ∧ cut.written = text ∧
        cut.steps = steps := by
  constructor
  · intro h
    fun_induction readAll context compilers offset text generalizing steps with
    | case1 offset text hn =>
      obtain rfl := Except.ok.inj h
      exact ⟨⟨[], text⟩, ⟨by simp, by simp, read?_eq_none_iff.mp hn⟩, rfl, rfl⟩
    | case2 => cases h
    | case3 => cases h
    | case4 => cases h
    | case5 offset text term hterm hjoin others hothers ih =>
      obtain rfl := Except.ok.inj h
      obtain ⟨⟨parts, tail⟩, hcut, hrest, rfl⟩ := ih hothers
      obtain ⟨part, hpart, hstep, rfl⟩ := exists_part hterm
      refine ⟨⟨part :: parts, tail⟩, .cons hpart hcut fun next hnext => ?_, ?_, ?_⟩
      · obtain ⟨parts, rfl⟩ := List.head?_eq_some_iff.mp hnext
        rw [← hrest, TextCut.written_cons] at hjoin
        exact (joinFault?_eq_none_iff (hcut.of_cons).1 _ _).mp hjoin
      · rw [TextCut.written_cons, hrest]
      · exact congrArg (· :: _) hstep
  · rintro ⟨⟨parts, tail⟩, hcut, rfl, rfl⟩
    induction parts generalizing offset with
    | nil => exact readAll_of_none (read?_eq_none_iff.mpr hcut.tail)
    | cons part parts ih =>
      obtain ⟨hpart, hcuts, hj⟩ := hcut.of_cons
      obtain ⟨next, hread⟩ := exists_read? hpart offset (TextCut.written ⟨parts, tail⟩)
      rw [← TextCut.written_cons] at hread
      have hjoin : joinFault? next (TextCut.written ⟨parts, tail⟩) = none := by
        cases parts with
        | nil => exact joinFault?_of_unmarked hcut.tail next
        | cons other parts =>
          rw [TextCut.written_cons]
          exact (joinFault?_eq_none_iff hcuts.of_cons.1 _ _).mpr (hj other rfl)
      exact readAll_of_some hread hjoin (ih hcuts)

end TextTerm

/-- Two calls that are cut out of a text as the same one are the same. -/
private theorem WrittenCall.eq_of_callee {gap other rest : List Char} {site site2 : WrittenCall}
    (h : site.callee gap rest = site2.callee other rest) : site = site2 := by
  have ht := congrArg Callee.tail h
  have stop (inside : List Char) : ∀ c ∈ ('(' :: (inside ++ ')' :: rest)).head?,
      (c != ' ') = true := by simp
  obtain ⟨hspaces, hinside⟩ := append_unique (p := (· != ' ')) (by simp) (by simp)
    (stop site.inside) (stop site2.inside) ht
  have hcount := congrArg List.length hspaces
  rw [List.length_replicate, List.length_replicate] at hcount
  rw [← site.site_callee gap rest, ← site2.site_callee other rest, h, hcount,
    List.append_cancel_right (List.cons.inj hinside).2]

namespace TextPart.Stands
variable {world : World} {compilers : Compilers} {part other : TextPart}

/-- A text starts with one part at most. -/
theorem unique (h : part.Stands world compilers) (ho : other.Stands world compilers)
    {rest more : List Char} (he : part.written ++ rest = other.written ++ more) :
    part = other ∧ rest = more := by
  obtain ⟨hstep, rfl⟩ : part.step = other.step ∧ rest = more := by
    obtain ⟨next, hread⟩ := @TextTerm.exists_read? ⟨world, {}⟩ compilers part h 0 rest
    obtain ⟨last, hother⟩ := @TextTerm.exists_read? ⟨world, {}⟩ compilers other ho 0 more
    rw [he, hother] at hread
    obtain ⟨hstep, -, hrest⟩ := TextTerm.mk.inj (Except.ok.inj (Option.some.inj hread))
    exact ⟨hstep.symm, hrest.symm⟩
  obtain ⟨mark, behind, -, htake, hdrop, hquote⟩ := h.cut rest
  obtain ⟨sign, after, -, htake2, hdrop2, hquote2⟩ := ho.cut rest
  rw [he, hdrop2] at hdrop
  obtain ⟨rfl, -⟩ := List.cons.inj hdrop
  rw [he, htake2] at htake
  obtain ⟨gap, term, step⟩ := part
  obtain ⟨gap2, term2, step2⟩ := other
  obtain rfl := hstep
  refine ⟨?_, rfl⟩
  cases term with
  | quoted body =>
    cases term2 with
    | quoted body2 =>
      obtain rfl : gap2 = gap := by simpa [WrittenTerm.front] using htake
      have hbody := List.append_cancel_left (List.append_cancel_right he)
      obtain rfl : body = body2 := List.append_cancel_right (List.cons.inj hbody).2
      rfl
    | call =>
      obtain ⟨_, hbody⟩ := hquote2.mp (hquote.mpr ⟨body, rfl⟩)
      cases hbody
  | call site =>
    cases term2 with
    | quoted body =>
      obtain ⟨_, hbody⟩ := hquote.mp (hquote2.mpr ⟨body, rfl⟩)
      cases hbody
    | call site2 =>
      have hs := Callee.next?_eq_some_iff.mpr (h.becomes.wellFormed.splits h.gap h.follows rest)
      have hs2 := Callee.next?_eq_some_iff.mpr
        (ho.becomes.wellFormed.splits ho.gap ho.follows rest)
      have hcallee : site.callee gap rest = site2.callee gap2 rest :=
        Option.some.inj (hs.symm.trans ((congrArg Callee.next? he).trans hs2))
      obtain rfl : gap = gap2 := congrArg Callee.lead hcallee
      rw [WrittenCall.eq_of_callee hcallee]

/-- A part does not stand in a text without marks. -/
theorem exists_mark (h : part.Stands world compilers) (rest : List Char) :
    ∃ c ∈ part.written ++ rest, isTextMark c = true := by
  obtain ⟨mark, behind, -, -, hd, -⟩ := h.cut rest
  refine ⟨mark, List.dropWhile_subset _ (hd ▸ List.mem_cons_self), ?_⟩
  have hnot := List.head?_dropWhile_not (!isTextMark ·) (part.written ++ rest)
  rw [hd] at hnot
  simpa using hnot

end TextPart.Stands

/-- A text can be cut in one way at most. -/
theorem TextCut.Holds.unique {world : World} {compilers : Compilers} {cut other : TextCut}
    (h : cut.Holds world compilers) (ho : other.Holds world compilers)
    (he : cut.written = other.written) : cut = other := by
  have absurd_of_unmarked {part : TextPart} {parts : List TextPart} {text tail : List Char}
      (hu : ∀ c ∈ text, isTextMark c = false)
      (hp : Holds world compilers ⟨part :: parts, tail⟩)
      (hw : text = written ⟨part :: parts, tail⟩) : False := by
    obtain ⟨c, hc, hm⟩ := hp.of_cons.1.exists_mark (written ⟨parts, tail⟩)
    rw [← written_cons, ← hw] at hc
    rw [hu c hc] at hm
    cases hm
  obtain ⟨parts, tail⟩ := cut
  obtain ⟨parts2, tail2⟩ := other
  induction parts generalizing parts2 with
  | nil =>
    cases parts2 with
    | nil => exact congrArg (TextCut.mk []) he
    | cons part2 parts2 => exact (absurd_of_unmarked h.tail ho he).elim
  | cons part parts ih =>
    cases parts2 with
    | nil => exact (absurd_of_unmarked ho.tail h he.symm).elim
    | cons part2 parts2 =>
      obtain ⟨hpart, hcut, -⟩ := h.of_cons
      obtain ⟨hpart2, hcut2, -⟩ := ho.of_cons
      rw [written_cons, written_cons] at he
      obtain ⟨rfl, hrest⟩ := hpart.unique hpart2 he
      obtain ⟨rfl, rfl⟩ := TextCut.mk.inj (ih hcut parts2 hcut2 hrest)
      rfl

/-- A text is accepted if and only if it can be cut into one part or more. -/
theorem TextForm.compileWith_eq_ok_iff {context : Context} {compilers : Compilers} {raw : String}
    {form : TextForm} :
    compileWith context compilers raw = .ok form ↔
      ∃ cut : TextCut, cut.Holds context.world compilers ∧ cut.written = raw.toList ∧
        cut.parts ≠ [] ∧ form.steps = cut.steps := by
  simp only [compileWith]
  constructor
  · intro h
    split at h
    · cases h
    · cases h
    · rename_i hne hsteps
      obtain ⟨cut, hcut, hw, rfl⟩ := TextTerm.readAll_eq_ok_iff.mp hsteps
      obtain rfl := Except.ok.inj h
      refine ⟨cut, hcut, hw, fun hnil => hne ?_, rfl⟩
      rw [TextCut.steps, hnil]
      rfl
  · rintro ⟨cut, hcut, hw, hne, hf⟩
    have hsteps : TextTerm.readAll context compilers 0 raw.toList = .ok cut.steps :=
      TextTerm.readAll_eq_ok_iff.mpr ⟨cut, hcut, hw, rfl⟩
    rw [hsteps]
    obtain ⟨steps⟩ := form
    obtain rfl := hf
    obtain ⟨parts, tail⟩ := cut
    cases parts with
    | nil => exact absurd rfl hne
    | cons part parts => rfl

end SceneFormula
