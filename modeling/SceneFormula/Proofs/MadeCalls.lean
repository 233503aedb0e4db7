import SceneFormula.Proofs.Depth
import SceneFormula.Proofs.Replacement
import SceneFormula.Proofs.Targets
import SceneFormula.Proofs.TextCuts

namespace SceneFormula
open Arithmetic (isReserved)
open Source (ArgumentList)

namespace Source.ArgumentList

private theorem resume_infix (level : Nat) (quoted : Bool) (previous : Char) (offset : Nat)
    (text : List Char) :
    (resume level quoted previous offset text).first.text <+: text ∧
      ∀ other ∈ (resume level quoted previous offset text).others, other.text <:+: text := by
  induction text generalizing level quoted previous offset with
  | nil => exact ⟨List.prefix_rfl, nofun⟩
  | cons c text ih =>
    rw [resume_cons]
    cases move level quoted previous c with
    | keep level quoted =>
      obtain ⟨hfirst, hothers⟩ := ih level quoted c (offset + c.utf8Size)
      exact ⟨List.cons_prefix_cons.mpr ⟨rfl, hfirst⟩,
        fun other ho => (hothers other ho).trans (List.suffix_cons c text).isInfix⟩
    | close => exact ⟨List.nil_prefix, nofun⟩
    | comma =>
      obtain ⟨hfirst, hothers⟩ := ih 0 false c (offset + c.utf8Size)
      have hin {part : List Char} (h : part <:+: text) : part <:+: c :: text :=
        h.trans (List.suffix_cons c text).isInfix
      refine ⟨List.nil_prefix, fun other ho => ?_⟩
      rcases List.mem_cons.mp ho with rfl | ho
      · exact hin hfirst.isInfix
      · exact hin (hothers other ho)

/-- Each argument is a part of the text that is read. -/
theorem infix_of_mem_texts {offset : Nat} {text argument : List Char}
    (h : argument ∈ (read offset text).texts) : argument <:+: text := by
  obtain ⟨hfirst, hothers⟩ := resume_infix 0 false '(' offset text
  obtain ⟨found, hf, rfl⟩ := List.mem_map.mp h
  rcases List.mem_cons.mp hf with rfl | hf
  · exact hfirst.isInfix
  · exact hothers found hf

theorem trimmed_subset (texts : List (List Char)) : trimmed texts ⊆ texts := by
  unfold trimmed
  split
  · exact List.dropLast_subset texts
  · exact List.Subset.refl texts

end Source.ArgumentList

/-- The arguments that are parameters. A numeric call leaves out a last one of nothing but
spaces. -/
def ResultKind.given : ResultKind → List (List Char) → List (List Char)
  | number, texts => ArgumentList.trimmed texts
  | text, texts => texts

def ResultKind.Allows (declarations : List Declaration) (count : Nat) : ResultKind → Prop
  | number => mandatoryCount declarations ≤ count ∧ count ≤ declarations.length
  | text => declarations.length ≤ count

/-- How a parameter that stands at an index is treated: as declared, but a receiver of a numeric
call and a parameter that is not declared stay as they are. -/
def Target.treatment (target : Target) (kind : ResultKind) (index : Nat) : Treatment :=
  if kind = .number ∧ index < target.receivers.length then .verbatim
  else (target.declarations[index]?.map (·.kind.treatment)).getD .verbatim

namespace WrittenCall

/-- What a call becomes that means a known function where it is written: the routine of that
function, with its receivers and the arguments as parameters, each one treated as it must be. -/
structure Makes (world : World) (compilers : Compilers) (kind : ResultKind) (site : WrittenCall)
    (target : Target) (call : Routine × List Expression) : Prop where
  name : ∀ c ∈ site.name, Callee.isMark c = false
  member : ∀ member spaces, site.member = some (member, spaces) →
    ∀ c ∈ member, Callee.endsMember c = false
  unreserved : kind = .number → isReserved site.function = false
  resolved : world.resolve kind site.receiver? site.function = some target
  routine : call.1 = target.routine
  raws : call.2.map (·.raw) = target.receivers ++ (kind.given site.arguments).map String.ofList
  count : kind.Allows target.declarations call.2.length
  binds : ∀ index parameter, call.2[index]? = some parameter →
    Binds world compilers (target.treatment kind index) parameter.raw parameter

variable {world : World} {compilers more : Compilers} {kind : ResultKind} {site : WrittenCall}
  {target : Target} {call : Routine × List Expression}

theorem Makes.mono (h : site.Makes world compilers kind target call)
    (hr : compilers.Refines more) : site.Makes world more kind target call :=
  { h with binds := fun index parameter hp => (h.binds index parameter hp).mono hr }

theorem infix_of_mem_arguments {argument : List Char} (h : argument ∈ site.arguments) :
    argument <:+: site.span := by
  have hsuffix : site.inside ++ [')'] <:+ site.span := ⟨site.head, by simp [span]⟩
  exact (ArgumentList.infix_of_mem_texts h).trans hsuffix.isInfix

theorem mem_span (site : WrittenCall) : '(' ∈ site.span := by
  rw [span, head]
  split <;> simp

/-- The names of receivers hold no parenthesis. -/
theorem Makes.not_mem_receiver (h : site.Makes world compilers kind target call)
    {receiver : String} (hr : receiver ∈ target.receivers) : '(' ∉ receiver.toList := by
  obtain ⟨name, member, inside⟩ := site
  have hobject : '(' ∉ Source.decodeSpaces name := by
    intro hc
    obtain ⟨c, hc, he⟩ := List.mem_map.mp hc
    have hplain := h.name c hc
    split at he
    · cases he
    · rw [he] at hplain
      cases hplain
  have hmeans := World.resolve_eq_some_iff.mp h.resolved
  cases member with
  | none =>
    cases hmeans
    cases hr
  | some member =>
    obtain ⟨member, spaces⟩ := member
    have hmember : '(' ∉ member := fun hc => nomatch h.member member spaces rfl '(' hc
    cases hmeans with
    | object =>
      obtain rfl := List.mem_singleton.mp hr
      rwa [String.toList_ofList]
    | @component _ _ part inner _ _ hn _ _ _ _ =>
      rcases List.mem_cons.mp hr with rfl | hpart
      · rwa [String.toList_ofList]
      · obtain rfl := List.mem_singleton.mp hpart
        have hname : member = part ++ ':' :: ':' :: inner := by
          simpa [function] using Source.splitComponent_eq hn
        rw [String.toList_ofList]
        exact fun hc => hmember (hname ▸ List.mem_append_left _ hc)

/-- The text of a parameter is a part of the call, or no call can be written in it. -/
theorem Makes.raw (h : site.Makes world compilers kind target call) {parameter : Expression}
    (hp : parameter ∈ call.2) :
    parameter.raw.toList <:+: site.span ∨ '(' ∉ parameter.raw.toList := by
  have hraw : parameter.raw ∈ call.2.map (·.raw) := List.mem_map_of_mem hp
  rw [h.raws, List.mem_append] at hraw
  rcases hraw with hreceiver | hargument
  · exact .inr (h.not_mem_receiver hreceiver)
  · obtain ⟨argument, ha, he⟩ := List.mem_map.mp hargument
    have hmem : argument ∈ site.arguments := by
      cases kind with
      | number => exact ArgumentList.trimmed_subset _ ha
      | text => exact ha
    rw [← he, String.toList_ofList]
    exact .inl (infix_of_mem_arguments hmem)

end WrittenCall

section Binding
variable {world : World} {compilers : Compilers} {declarations : List Declaration}
  {parameters : List Expression} {index : Nat} {parameter : Expression}

theorem BindsAll.binds {texts : List (List Char)}
    (h : BindsAll world compilers declarations texts parameters)
    (hp : parameters[index]? = some parameter) :
    Binds world compilers ((declarations[index]?.map (·.kind.treatment)).getD .verbatim)
      parameter.raw parameter := by
  induction h generalizing index with
  | none => cases hp
  | more hb _ ih =>
    cases index with
    | zero =>
      obtain rfl := Option.some.inj hp
      exact hb.raw.symm ▸ hb
    | succ index => exact ih hp

theorem BindsFirst.binds {raws : List String}
    (h : BindsFirst world compilers declarations raws parameters)
    (hp : parameters[index]? = some parameter) :
    Binds world compilers ((declarations[index]?.map (·.kind.treatment)).getD .verbatim)
      parameter.raw parameter := by
  induction h generalizing index with
  | surplus =>
    rw [List.getElem?_map] at hp
    obtain ⟨raw, -, rfl⟩ := Option.map_eq_some_iff.mp hp
    exact .verbatim
  | more hb _ ih =>
    cases index with
    | zero =>
      obtain rfl := Option.some.inj hp
      exact hb.raw.symm ▸ hb
    | succ index => exact ih hp

/-- Receivers stay as they are, and the other parameters are prepared as declared. -/
theorem Calls.binds {target : Target} {texts : List (List Char)} {made : NumericCall}
    (h : Calls world compilers target texts made) (hp : made.parameters[index]? = some parameter) :
    Binds world compilers (target.treatment .number index) parameter.raw parameter := by
  obtain ⟨bound, hparameters, hbound⟩ := h.parameters
  rw [hparameters] at hp
  rw [Target.treatment]
  by_cases hreceiver : index < target.receivers.length
  · rw [if_pos ⟨rfl, hreceiver⟩]
    rw [List.getElem?_append_left (by simpa using hreceiver), List.getElem?_map] at hp
    obtain ⟨raw, -, rfl⟩ := Option.map_eq_some_iff.mp hp
    exact .verbatim
  · rw [if_neg fun hand => hreceiver hand.2]
    rw [List.getElem?_append_right (by simpa using hreceiver), List.length_map] at hp
    have hdeclared := hbound.binds hp
    rwa [List.getElem?_drop, Nat.add_sub_cancel' (Nat.le_of_not_lt hreceiver)] at hdeclared

end Binding

namespace Item

theorem exists_call_of_mem {items : List Item} {made : NumericCall} (h : made ∈ calls items) :
    ∃ site, .call site made ∈ items := by
  induction items with
  | nil => cases h
  | cons item items ih =>
    cases item with
    | char c =>
      obtain ⟨site, hs⟩ := ih h
      exact ⟨site, List.mem_cons_of_mem _ hs⟩
    | call site other =>
      rcases List.mem_cons.mp h with rfl | h
      · exact ⟨site, List.mem_cons_self⟩
      · obtain ⟨site, hs⟩ := ih h
        exact ⟨site, List.mem_cons_of_mem _ hs⟩

theorem span_infix {items : List Item} {site : WrittenCall} {made : NumericCall}
    (h : .call site made ∈ items) : site.span <:+: written items := by
  obtain ⟨before, after, rfl⟩ := List.append_of_mem h
  rw [written_append, written, ← List.append_assoc]
  exact List.infix_append _ _ _

theorem mem_of_mem_chars_append {copied : List Char} {items : List Item} {site : WrittenCall}
    {made : NumericCall} (h : .call site made ∈ chars copied ++ items) :
    .call site made ∈ items := by
  rcases List.mem_append.mp h with hchars | hitems
  · obtain ⟨c, -, he⟩ := List.mem_map.mp hchars
    cases he
  · exact hitems

end Item

/-- Each call that replaces a part of a numeric text is made where that part is written. -/
theorem Rewrites.exists_makes {world : World} {compilers : Compilers} {text : List Char}
    {items : List Item} (h : Rewrites world compilers text items) {site : WrittenCall}
    {made : NumericCall} (hm : .call site made ∈ items) :
    ∃ target, site.Makes world compilers .number target (made.routine, made.parameters) := by
  induction h with
  | @last text hn =>
    rw [← List.append_nil (Item.chars text)] at hm
    cases Item.mem_of_mem_chars_append hm
  | dot _ _ _ ih => exact ih (Item.mem_of_mem_chars_append hm)
  | name _ _ _ _ ih => exact ih (Item.mem_of_mem_chars_append hm)
  | @call text callee target spaces inside rest made items hn hb ht ho hl hc _ ih =>
    rcases List.mem_cons.mp (Item.mem_of_mem_chars_append hm) with he | hrest
    · obtain ⟨rfl, rfl⟩ := Item.call.inj he
      have hs := Callee.next?_eq_some_iff.mp hn
      have harguments : (callee.site spaces inside).arguments =
          (ArgumentList.read 0 (inside ++ ')' :: rest)).texts :=
        (ArgumentList.texts_read (ArgumentList.read_close_iff.mp hl)).symm
      obtain ⟨hreserved, hresolved⟩ :=
        Stretch.target?_site ht (by simp [ho]) spaces inside
      obtain ⟨bound, hparameters, hbound⟩ := hc.parameters
      refine ⟨target, fun c hc => hs.unmarked c (List.mem_append_right _ hc), hs.site_member,
        fun _ => hreserved, hresolved, hc.routine, ?_, ⟨hc.atLeast, hc.atMost⟩,
        fun index parameter hp => hc.binds hp⟩
      rw [hparameters, List.map_append, hbound.map_raw, List.map_map, harguments]
      exact congrArg (· ++ _) (List.map_id' _)
    · exact ih hrest

theorem TextCut.span_infix {cut : TextCut} {part : TextPart} (h : part ∈ cut.parts) :
    part.term.span <:+: cut.written := by
  obtain ⟨before, after, he⟩ := List.append_of_mem h
  refine ⟨before.flatMap TextPart.written ++ part.gap,
    after.flatMap TextPart.written ++ cut.tail, ?_⟩
  simp [written, he, TextPart.written]

namespace WrittenTerm.Becomes
variable {world : World} {compilers : Compilers} {term : WrittenTerm}

/-- Each call of a text function is made where it is written. -/
theorem exists_makes {routine : Routine} {parameters : List Expression}
    (h : term.Becomes world compilers (.call routine parameters)) :
    ∃ (site : WrittenCall) (target : Target), term.span = site.span ∧
      site.Makes world compilers .text target (routine, parameters) := by
  cases h with
  | @call site _ hw h =>
    cases h with
    | @call target _ ht hb =>
      refine ⟨site, target, rfl, fun c hc => ?_, hw.member, nofun, ht, rfl, hb.map_raw,
        hb.length_le, fun index parameter hp => hb.binds hp⟩
      exact (Bool.or_eq_false_iff.mp (hw.name c hc).2).1

/-- A number that is turned into text is compiled from the text of its call. -/
theorem converted {expression : Expression}
    (h : term.Becomes world compilers (.number expression)) :
    expression.raw.toList = term.span ∧
      Binds world compilers .number expression.raw expression := by
  cases h with
  | call hw h =>
    cases h with
    | number ht hn => exact ⟨String.toList_ofList, .number hn⟩

end WrittenTerm.Becomes
end SceneFormula
