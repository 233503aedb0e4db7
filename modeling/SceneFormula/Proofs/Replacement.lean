import SceneFormula.Formula.Compile
import SceneFormula.Proofs.Seams
import SceneFormula.Proofs.Folding
import SceneFormula.Proofs.VariableNames
import SceneFormula.Proofs.Writable

namespace SceneFormula
open Arithmetic (Program Derives isReserved)
open Source (ArgumentList isBroken separators width)

/-- A call that starts at a byte of the source, and what it was compiled to: its name, its list up
to the parenthesis that closes it, the function that it means, and the texts of its parameters. -/
structure WrittenCall.Stands (world : World) (source : List Char) (start : Nat)
    (site : WrittenCall) (made : NumericCall) : Prop where
  name : ∀ c ∈ site.name, c ∉ separators ∧ Callee.isMark c = false
  member : ∀ member spaces, site.member = some (member, spaces) →
    ∀ c ∈ member, Callee.endsMember c = false
  close : (ArgumentList.readAt source (start + width site.head)).close =
    some (start + width site.head + width site.inside)
  target : ∃ target, world.resolve .number site.receiver? site.function = some target ∧
    made.routine = target.routine ∧
    made.parameters.map (·.raw) = target.receivers ++
      (ArgumentList.readAt source (start + width site.head)).given.map (String.ofList ·.text)

/-- The calls that are looked at in a text if none of them is replaced. -/
inductive Stretch.Passes : List Char → Callee → Prop
  | here {text : List Char} {callee : Callee} (h : Callee.next? text = some callee) :
    Passes text callee
  | dot {text : List Char} {callee other : Callee} (h : Callee.next? text = some callee)
    (hb : isBroken separators (functionName callee) = true)
    (hp : Passes (callee.member.getD [] ++ callee.tail) other) : Passes text other
  | name {text : List Char} {callee other : Callee} (h : Callee.next? text = some callee)
    (hb : isBroken separators (functionName callee) = false)
    (hp : Passes (callee.tail.drop 1) other) : Passes text other

/-- A call that means a function is one of that function as it is written. -/
theorem Stretch.target?_site {world : World} {callee : Callee} {target : Target}
    (h : target? world callee = some target) (ht : callee.tail ≠ []) (spaces : Nat)
    (inside : List Char) :
    isReserved (callee.site spaces inside).function = false ∧
      world.resolve .number (callee.site spaces inside).receiver?
        (callee.site spaces inside).function = some target := by
  have hfunction : String.ofList (functionName callee) =
      (callee.site spaces inside).function := by
    rw [functionName, if_neg ht, Callee.function, Callee.site, WrittenCall.function]
    cases callee.member <;> rfl
  have hreceiver : callee.receiver? = (callee.site spaces inside).receiver? := by
    rw [Callee.receiver?, Callee.site, WrittenCall.receiver?]
    cases callee.member <;> rfl
  simp only [target?, hfunction, hreceiver] at h
  split at h
  · cases h
  · rename_i hreserved
    exact ⟨by simpa using hreserved, h⟩

namespace Rewrites
variable {world : World} {compilers : Compilers} {text : List Char} {items : List Item}

private theorem chars_append_eq {copied : List Char} {items before after : List Item}
    {site : WrittenCall} {made : NumericCall}
    (h : Item.chars copied ++ items = before ++ .call site made :: after) :
    ∃ more, before = Item.chars copied ++ more ∧ items = more ++ .call site made :: after := by
  induction copied generalizing before with
  | nil => exact ⟨before, rfl, h⟩
  | cons c copied ih =>
    cases before with
    | nil => cases h
    | cons item before =>
      obtain ⟨rfl, hrest⟩ := List.cons.inj h
      obtain ⟨more, rfl, rfl⟩ := ih hrest
      exact ⟨more, rfl, rfl⟩

/-- The call that was read behind a name stands there. -/
private theorem stands_of_read {callee : Callee} {target : Target} {spaces : Nat}
    {inside rest : List Char} {made : NumericCall} (hs : callee.Splits text)
    (ht : Stretch.target? world callee = some target)
    (ho : callee.tail = List.replicate spaces ' ' ++ '(' :: (inside ++ ')' :: rest))
    (hl : (ArgumentList.read 0 (inside ++ ')' :: rest)).rest = some rest)
    (hc : Calls world compilers target
      (ArgumentList.trimmed (ArgumentList.read 0 (inside ++ ')' :: rest)).texts) made)
    (front : List Char) :
    (callee.site spaces inside).Stands world (front ++ text) (width (front ++ callee.lead))
      made := by
  have hat : ArgumentList.readAt (front ++ text)
      (width (front ++ callee.lead) + width (callee.site spaces inside).head) =
        ArgumentList.read (width (front ++ callee.lead) + width (callee.site spaces inside).head)
          (inside ++ ')' :: rest) := by
    have hfront : front ++ text = front ++ callee.lead ++ (callee.site spaces inside).head ++
        (inside ++ ')' :: rest) := by
      rw [← hs.lead_append_head ho inside]
      simp
    rw [ArgumentList.readAt, hfront, ← Source.width_append, Source.cut_width]
  obtain ⟨htexts, hsame⟩ := ArgumentList.read_shift
    (width (front ++ callee.lead) + width (callee.site spaces inside).head) 0
    (inside ++ ')' :: rest)
  rw [← hsame] at hl
  rw [← htexts, ← ArgumentList.map_text_given] at hc
  refine ⟨fun c hc => ⟨hs.plain c hc, hs.unmarked c (List.mem_append_right _ hc)⟩,
    hs.site_member, ?_, target, ?_, hc.routine, ?_⟩
  · obtain ⟨other, hother, hstop⟩ := ArgumentList.resume_stop hl
    obtain rfl : inside = other := List.append_cancel_right hother
    rw [hat, ArgumentList.close, hl, Option.map_some]
    exact congrArg some hstop
  · exact (Stretch.target?_site ht (by simp [ho]) spaces inside).2
  · obtain ⟨bound, hparameters, hbound⟩ := hc.parameters
    rw [hat, hparameters, List.map_append, hbound.map_raw, List.map_map, List.map_map]
    congr 1
    exact List.map_id' _

/-- Each replaced call stands where the items place it. -/
theorem stands (h : Rewrites world compilers text items) (front : List Char)
    {before after : List Item} {site : WrittenCall} {made : NumericCall}
    (he : items = before ++ .call site made :: after) :
    site.Stands world (front ++ text) (width (front ++ Item.written before)) made := by
  -- The text that was copied becomes a part of the front, so that the call is met as the first one.
  have copied {text : List Char} {items before : List Item}
      (hr : Rewrites world compilers text items)
      (ih : ∀ (front : List Char) {before : List Item}, items = before ++ .call site made :: after →
        site.Stands world (front ++ text) (width (front ++ Item.written before)) made)
      {copied whole front : List Char} (hw : copied ++ text = whole)
      (he : Item.chars copied ++ items = before ++ .call site made :: after) :
      site.Stands world (front ++ whole) (width (front ++ Item.written before)) made := by
    obtain ⟨more, rfl, rfl⟩ := chars_append_eq he
    rw [Item.written_append, Item.written_chars, ← hw, ← List.append_assoc, ← List.append_assoc]
    exact ih (front ++ copied) rfl
  induction h generalizing front before with
  | @last text hn =>
    obtain ⟨more, _, hnil⟩ := chars_append_eq ((List.append_nil _).trans he)
    cases more <;> cases hnil
  | @dot text callee items hn hb hr ih =>
    refine copied hr ih ?_ he
    have hw := (Rewrites.dot hn hb hr).written
    rw [Item.written_append, Item.written_chars, hr.written] at hw
    exact hw
  | @name text callee items hn hb ht hr ih =>
    refine copied hr ih ?_ he
    rw [List.append_assoc, List.take_append_drop]
    exact (Callee.next?_eq_some_iff.mp hn).text
  | @call text callee target spaces inside rest other items hn hb ht ho hl hc hr ih =>
    have hs := Callee.next?_eq_some_iff.mp hn
    obtain ⟨more, rfl, hmore⟩ := chars_append_eq he
    cases more with
    | nil =>
      obtain ⟨hcall, rfl⟩ := List.cons.inj hmore
      obtain ⟨rfl, rfl⟩ := Item.call.inj hcall
      rw [List.append_nil, Item.written_chars]
      exact stands_of_read hs ht ho hl hc front
    | cons item more =>
      obtain ⟨rfl, rfl⟩ := List.cons.inj hmore
      have hw : callee.lead ++ (callee.site spaces inside).span ++ rest = text := by
        rw [← hs.lead_append_head ho inside, WrittenCall.span]
        simp [Callee.site]
      have hi := ih (front ++ (callee.lead ++ (callee.site spaces inside).span)) rfl
      rw [Item.written_append, Item.written_chars, Item.written, ← List.append_assoc,
        ← List.append_assoc, ← hw]
      simpa [List.append_assoc] using hi

/-- Where no call means a function, the whole text is kept. -/
theorem of_unresolved (text : List Char)
    (h : ∀ callee, Stretch.Passes text callee →
      isBroken separators (Stretch.functionName callee) = false →
      Stretch.target? world callee = none) :
    Rewrites world compilers text (Item.chars text) := by
  cases hn : Callee.next? text with
  | none => exact .last hn
  | some callee =>
    have hs := Callee.next?_eq_some_iff.mp hn
    have hl := congrArg List.length hs.text
    rw [List.length_append, List.length_append] at hl
    have kept {items : List Item} (hr : Rewrites world compilers text items)
        {copied rest : List Char} (he : items = Item.chars copied ++ Item.chars rest) :
        items = Item.chars text := by
      rw [← hr.written, he, Item.written_append, Item.written_chars, Item.written_chars]
      exact (List.map_append).symm
    cases hb : isBroken separators (Stretch.functionName callee) with
    | true =>
      have hshort : (callee.member.getD [] ++ callee.tail).length < text.length := by
        obtain ⟨-, member, hm, -⟩ := hs.exists_member hb
        simp only [Callee.written, hm, Option.map_some, Option.getD_some, List.length_append,
          List.length_cons] at hl ⊢
        omega
      have hr := of_unresolved (callee.member.getD [] ++ callee.tail)
        fun other hp => h other (.dot hn hb hp)
      exact kept (.dot hn hb hr) rfl ▸ .dot hn hb hr
    | false =>
      have hshort : (callee.tail.drop 1).length < text.length := by
        have hpos : 0 < text.length := by
          cases text with
          | nil => cases hn
          | cons c text => exact Nat.succ_pos _
        rw [List.length_drop]
        omega
      have ht := h callee (.here hn) hb
      have hr := of_unresolved (callee.tail.drop 1) fun other hp => h other (.name hn hb hp)
      exact kept (.name hn hb ht hr) rfl ▸ .name hn hb ht hr
termination_by text.length
decreasing_by
  · exact hshort
  · exact hshort

end Rewrites

theorem exists_eq_ok {ε α : Type} {result : Except ε α} (h : result.toBool = true) :
    ∃ value, result = .ok value := by
  cases result with
  | error => cases h
  | ok value => exact ⟨value, rfl⟩

theorem eq_ok_of_toOption {ε α : Type} {result : Except ε α} {value : α}
    (h : result.toOption = some value) : result = .ok value := by
  cases result with
  | error => cases h
  | ok found => exact congrArg Except.ok (Option.some.inj h)

namespace Context
variable {context : Context}

/-- The outermost text is compiled with the compilers of one level less for its parameters. -/
theorem compileNumber_eq (context : Context) (raw : String) :
    context.compileNumber raw = NumericForm.compileWith context
      (.ofLevels context context.options.maxDepth.toNat) raw := rfl

/-- The calls of an accepted text become its variables, and nothing else of it changes: each one is
a whole call that means what it was compiled to, and the arithmetic is the folded program of the
text with the variables. A text whose calls mean no function is read as arithmetic as it is. -/
theorem compileNumber_replaces_calls (context : Context) (source : String) :
    (∀ form, context.compileNumber source = .ok form →
      ∃ items, Item.written items = source.toList ∧ Item.calls items = form.calls ∧
        Item.spell 0 items = form.program.source.toList ∧
        (∀ before site made after, items = before ++ .call site made :: after →
          site.Stands context.world source.toList (width (Item.written before)) made) ∧
        form.program.parameters = variableNames form.calls.length ∧
        (∀ index ∈ form.program.term.indices, index < form.calls.length) ∧
        ∃ program, Program.parse form.program.source (variableNames form.calls.length)
          context.options.maxDepth.toNat = .ok program ∧ form.program = program.optimize) ∧
    ((∀ callee, Stretch.Passes source.toList callee →
        isBroken separators (Stretch.functionName callee) = false →
        isReserved (String.ofList (Stretch.functionName callee)) = false →
        context.world.resolve .number callee.receiver?
          (String.ofList (Stretch.functionName callee)) = none) →
      context.compileNumber source =
        (Program.parse source [] context.options.maxDepth.toNat).map
          fun program => ⟨[], program.optimize⟩) := by
  constructor
  · intro form h
    rw [compileNumber_eq, NumericForm.compileWith_eq_ok_iff] at h
    obtain ⟨items, program, hr, hp, rfl⟩ := h
    obtain ⟨kinds, term, hl, hd, rfl⟩ := Arithmetic.Program.parse_eq_ok_iff.mp hp
    refine ⟨items, hr.written, rfl, String.toList_ofList.symm, ?_, rfl, ?_, _, hp, rfl⟩
    · intro before site made after he
      exact hr.stands [] he
    · intro index hi
      have hv : (Arithmetic.Term.fold term).indices = term.indices :=
        Arithmetic.Term.indices_fold term
      change index ∈ (Arithmetic.Term.fold term).indices at hi
      rw [hv, hd.indices_eq fun name hm => builtin_eq_none_of_mem hm] at hi
      exact index_lt_of_mem hi
  · intro h
    have hr : Rewrites context.world (.ofLevels context context.options.maxDepth.toNat)
        source.toList (Item.chars source.toList) := by
      refine .of_unresolved _ fun callee hp hb => ?_
      rw [Stretch.target?]
      split
      · rfl
      · rename_i hres
        exact h callee hp hb (by simpa using hres)
    obtain ⟨stretches, hs, ha⟩ := Stretch.exists_readAll hr 0
    simp only [compileNumber_eq, NumericForm.compileWith, hs, ha.calls, ha.spell, Item.calls_chars,
      Item.spell_chars, String.ofList_toList]
    change _ = Except.map _ (Program.parse source (variableNames 0) _)
    cases Program.parse source (variableNames 0) context.options.maxDepth.toNat <;> rfl

theorem compileNumber_replaces_calls_sample :
    (∃ form items, sample.compileNumber "2 * Player.X() + Count(\"a, b\")" = .ok form ∧
      Item.written items = "2 * Player.X() + Count(\"a, b\")".toList ∧
      Item.calls items = form.calls ∧ Item.spell 0 items = form.program.source.toList) ∧
    compileNumber ⟨.ofTables {} {} {}, {}⟩ "Player.X()" =
      (Program.parse "Player.X()" [] 64).map fun program => ⟨[], program.optimize⟩ := by
  constructor
  · obtain ⟨form, h⟩ := exists_eq_ok (by decide +kernel :
      (sample.compileNumber "2 * Player.X() + Count(\"a, b\")").toBool = true)
    obtain ⟨items, hw, hc, hs, _⟩ := (compileNumber_replaces_calls sample _).1 form h
    exact ⟨form, items, h, hw, hc, hs⟩
  · refine (compileNumber_replaces_calls ⟨.ofTables {} {} {}, {}⟩ _).2 fun callee _ _ _ => ?_
    cases callee.receiver? with
    | none => rfl
    | some object =>
      rw [World.resolve, Option.or_eq_none_iff, World.componentTarget?]
      refine ⟨rfl, ?_⟩
      split <;> rfl

end Context
end SceneFormula
