import SceneFormula.Formula.Textual
import SceneFormula.Proofs.Seams

namespace SceneFormula
open Source (ArgumentList separators splitQuoted unescape)

namespace Source

/-- The text between two quotes: each quote in it stands behind a backslash, and no backslash stands
at its end. -/
structure IsBody (body : List Char) : Prop where
  escaped : ∀ before after, body = before ++ '"' :: after → before.getLast? = some '\\'
  last : body.getLast? ≠ some '\\'

/-- A quoted text ends at the first quote that does not follow a backslash. -/
theorem splitQuoted_eq_some_iff {previous : Char} {text body rest : List Char} :
    splitQuoted previous text = some (body, rest) ↔
      text = body ++ '"' :: rest ∧
        (∀ before after, body = before ++ '"' :: after → before.getLast?.getD previous = '\\') ∧
        body.getLast?.getD previous ≠ '\\' := by
  constructor
  · intro h
    refine ⟨splitQuoted_eq h, ?_⟩
    fun_induction splitQuoted previous text generalizing body with
    | case1 => cases h
    | case2 previous c rest hc =>
      obtain ⟨rfl, -⟩ := Prod.mk.inj (Option.some.inj h)
      exact ⟨fun before after he => by simp at he, hc.2⟩
    | case3 previous c text hc ih =>
      obtain ⟨⟨inner, more⟩, hs, he⟩ := Option.map_eq_some_iff.mp h
      obtain ⟨rfl, rfl⟩ := Prod.mk.inj he
      obtain ⟨hescaped, hlast⟩ := ih hs
      refine ⟨fun before after he => ?_, ?_⟩
      · cases before with
        | nil =>
          obtain ⟨rfl, -⟩ := List.cons.inj he
          simpa using hc
        | cons d before =>
          obtain ⟨rfl, hrest⟩ := List.cons.inj he
          rw [List.getLast?_cons]
          exact hescaped before after hrest
      · rw [List.getLast?_cons]
        exact hlast
  · rintro ⟨rfl, hescaped, hlast⟩
    induction body generalizing previous with
    | nil => exact if_pos ⟨rfl, hlast⟩
    | cons c body ih =>
      have hc : ¬ (c = '"' ∧ previous ≠ '\\') := by
        rintro ⟨rfl, hne⟩
        exact hne (hescaped [] body rfl)
      rw [List.getLast?_cons] at hlast
      have hs : splitQuoted c (body ++ '"' :: rest) = some (body, rest) := by
        refine ih (fun before after he => ?_) hlast
        have hb := hescaped (c :: before) after (congrArg (c :: ·) he)
        rwa [List.getLast?_cons] at hb
      rw [List.cons_append, splitQuoted, if_neg hc, hs]
      rfl

theorem splitQuoted_quote_iff {text body rest : List Char} :
    splitQuoted '"' text = some (body, rest) ↔ text = body ++ '"' :: rest ∧ IsBody body := by
  have hlast (part : List Char) : part.getLast?.getD '"' = '\\' ↔ part.getLast? = some '\\' := by
    cases part.getLast? <;> simp
  simp only [splitQuoted_eq_some_iff, hlast, ne_eq]
  exact and_congr_right fun _ => ⟨fun h => ⟨h.1, h.2⟩, fun h => ⟨h.escaped, h.last⟩⟩

namespace ArgumentList

private theorem resume_close_iff {level : Nat} {quoted : Bool} {previous : Char} {offset : Nat}
    {inside rest : List Char} :
    (resume level quoted previous offset (inside ++ ')' :: rest)).rest = some rest ↔
      (resume level quoted previous offset (inside ++ [')'])).rest = some [] := by
  induction inside generalizing level quoted previous offset with
  | nil =>
    rw [List.nil_append, List.nil_append, resume_cons, resume_cons]
    cases move level quoted previous ')' with
    | keep level quoted =>
      refine ⟨fun h => absurd (resume_length (h : (resume _ _ _ _ rest).rest = _)) (by omega),
        fun h => ?_⟩
      cases (h : (resume _ _ _ _ []).rest = _)
    | close => exact ⟨fun _ => rfl, fun _ => rfl⟩
    | comma =>
      refine ⟨fun h => absurd (resume_length (h : (resume _ _ _ _ rest).rest = _)) (by omega),
        fun h => ?_⟩
      cases (h : (resume _ _ _ _ []).rest = _)
  | cons c inside ih =>
    rw [List.cons_append, List.cons_append, resume_cons, resume_cons]
    cases move level quoted previous c with
    | keep level quoted => exact ih
    | close =>
      constructor
      · intro h
        have hl := congrArg List.length (Option.some.inj h)
        rw [List.length_append, List.length_cons] at hl
        omega
      · intro h
        have hl := congrArg List.length (Option.some.inj h)
        rw [List.length_append, List.length_cons] at hl
        cases hl
    | comma => exact ih

/-- Whether a list closes at a parenthesis does not hang on what follows. -/
theorem read_close_iff {offset : Nat} {inside rest : List Char} :
    (read offset (inside ++ ')' :: rest)).rest = some rest ↔
      (read 0 (inside ++ [')'])).rest = some [] := by
  rw [(read_shift offset 0 _).2]
  exact resume_close_iff

/-- The arguments do not hang on what follows the list, nor on where it stands. -/
theorem texts_read {offset : Nat} {inside rest : List Char}
    (h : (read 0 (inside ++ [')'])).rest = some []) :
    (read offset (inside ++ ')' :: rest)).texts = (read 0 (inside ++ [')'])).texts := by
  have happend := read_append h rest
  rw [List.append_assoc, List.singleton_append] at happend
  rw [(read_shift offset 0 _).1, happend]
  rfl

end ArgumentList
end Source

namespace WrittenCall

/-- How a call must be written to be read as one: no mark stands in its name, and its list ends at
the parenthesis that closes it. -/
structure WellFormed (site : WrittenCall) : Prop where
  name : ∀ c ∈ site.name, c ∉ separators ∧ isTextMark c = false
  member : ∀ member spaces, site.member = some (member, spaces) →
    ∀ c ∈ member, Callee.endsMember c = false
  close : (ArgumentList.read 0 (site.inside ++ [')'])).rest = some []

def arguments (site : WrittenCall) : List (List Char) :=
  (ArgumentList.read 0 (site.inside ++ [')'])).texts

end WrittenCall

inductive BindsFirst (world : World) (compilers : Compilers) :
    List Declaration → List String → List Expression → Prop
  | surplus {raws : List String} :
    BindsFirst world compilers [] raws (raws.map (.ofRaw world))
  | more {declaration : Declaration} {declarations : List Declaration} {raw : String}
    {raws : List String} {parameter : Expression} {parameters : List Expression}
    (h : Binds world compilers declaration.kind.treatment raw parameter)
    (ht : BindsFirst world compilers declarations raws parameters) :
    BindsFirst world compilers (declaration :: declarations) (raw :: raws)
      (parameter :: parameters)

/-- What a call in a text becomes: the call of a text function with at least as many parameters as
declared, or a number. -/
inductive WrittenCall.Becomes (world : World) (compilers : Compilers) (site : WrittenCall) :
    TextStep → Prop
  | call {target : Target} {parameters : List Expression}
    (ht : world.resolve .text site.receiver? site.function = some target)
    (hb : BindsFirst world compilers target.declarations
      (target.receivers ++ site.arguments.map String.ofList) parameters) :
    Becomes world compilers site (.call target.routine parameters)
  | number {form : NumericForm}
    (ht : world.resolve .text site.receiver? site.function = none)
    (hn : compilers.number (String.ofList site.span) = .ok form) :
    Becomes world compilers site
      (.number { Expression.ofRaw world (String.ofList site.span) with number := .ready form })

inductive WrittenTerm where
  | quoted (body : List Char)
  | call (site : WrittenCall)

namespace WrittenTerm

def span : WrittenTerm → List Char
  | quoted body => '"' :: body ++ ['"']
  | call site => site.span

inductive Becomes (world : World) (compilers : Compilers) : WrittenTerm → TextStep → Prop
  | quoted {body : List Char} (h : Source.IsBody body) :
    Becomes world compilers (.quoted body) (.literal (String.ofList (unescape body)))
  | call {site : WrittenCall} {step : TextStep} (hw : site.WellFormed)
    (h : site.Becomes world compilers step) : Becomes world compilers (.call site) step

theorem Becomes.wellFormed {world : World} {compilers : Compilers} {site : WrittenCall}
    {step : TextStep} (h : Becomes world compilers (.call site) step) : site.WellFormed := by
  cases h with
  | call hw _ => exact hw

/-- A name starts behind a separator, or with the text that follows the term before it. -/
def Follows (gap : List Char) : WrittenTerm → Prop
  | quoted _ => True
  | call _ => ∀ c ∈ gap.getLast?, c ∈ separators

end WrittenTerm

variable {context : Context} {compilers : Compilers}

theorem BindsFirst.map_raw {world : World} {declarations : List Declaration} {raws : List String}
    {parameters : List Expression} (h : BindsFirst world compilers declarations raws parameters) :
    parameters.map (·.raw) = raws := by
  induction h with
  | surplus =>
    rw [List.map_map]
    exact List.map_id' _
  | more hb _ ih => rw [List.map_cons, hb.raw, ih]

theorem BindsFirst.length_le {world : World} {declarations : List Declaration} {raws : List String}
    {parameters : List Expression} (h : BindsFirst world compilers declarations raws parameters) :
    declarations.length ≤ parameters.length := by
  induction h with
  | surplus => exact Nat.zero_le _
  | more _ _ ih => exact Nat.succ_le_succ ih

theorem prepareNumberWith_eq_none_iff {raw : String} {parameter : Expression} :
    (Expression.ofRaw context.world raw).prepareNumberWith compilers context.options =
        (none, parameter) ↔
      ∃ form, compilers.number raw = .ok form ∧
        parameter = { Expression.ofRaw context.world raw with number := .ready form } := by
  simp only [Expression.prepareNumberWith, Expression.ofRaw]
  cases compilers.number raw with
  | ok form => simp [eq_comm]
  | error fault => simp

namespace TextTerm

theorem bindAll_eq_ok_iff {declarations : List Declaration} {parameters : List (Expression × Nat)}
    {raws : List String} {bound : List Expression}
    (hp : parameters.map (·.1) = raws.map (Expression.ofRaw context.world))
    (hl : declarations.length ≤ parameters.length) :
    bindAll compilers context.options declarations parameters = .ok bound ↔
      BindsFirst context.world compilers declarations raws bound := by
  induction declarations generalizing parameters raws bound with
  | nil =>
    rw [bindAll, hp, Except.ok.injEq]
    · constructor
      · rintro rfl
        exact .surplus
      · intro h
        cases h
        rfl
    · simp
  | cons declaration declarations ih =>
    obtain ⟨⟨parameter, base⟩, others, rfl⟩ :=
      List.exists_cons_of_length_pos (Nat.lt_of_lt_of_le (Nat.succ_pos _) hl)
    cases raws with
    | nil => cases hp
    | cons raw raws =>
      obtain ⟨rfl, hothers⟩ := List.cons.inj hp
      have hl2 : declarations.length ≤ others.length := Nat.le_of_succ_le_succ hl
      rw [bindAll]
      constructor
      · intro h
        split at h
        · cases h
        · rename_i first hfirst
          split at h
          · cases h
          · rename_i rest hrest
            obtain rfl := Except.ok.inj h
            exact .more (bindTo_eq_none_iff.mp hfirst) ((ih hothers hl2).mp hrest)
      · intro h
        cases h with
        | more hb ht => rw [bindTo_eq_none_iff.mpr hb, (ih hothers hl2).mpr ht]

/-- A call of a text function is made if as many parameters as declared are there and can be
prepared. -/
theorem call_eq_ok_iff {target : Target} {nameStart nameEnd : Nat} {list : ArgumentList}
    {step : TextStep} :
    call context compilers target nameStart nameEnd list = .ok step ↔
      ∃ parameters, step = .call target.routine parameters ∧
        BindsFirst context.world compilers target.declarations
          (target.receivers ++ list.texts.map String.ofList) parameters := by
  have hmin : mandatoryCount target.declarations ≤ target.declarations.length :=
    List.countP_le_length
  simp only [call]
  generalize hgiven : target.receivers.map (fun name =>
      (Expression.ofRaw context.world name, nameStart)) ++ list.arguments.map (fun written =>
      (Expression.ofRaw context.world (String.ofList written.text), written.start)) = given
  have hraw : given.map (·.1) =
      (target.receivers ++ list.texts.map String.ofList).map (Expression.ofRaw context.world) := by
    rw [← hgiven]
    simp [ArgumentList.texts, Function.comp_def]
  split
  · rename_i hfew
    refine ⟨nofun, ?_⟩
    rintro ⟨parameters, -, hb⟩
    have hl := congrArg List.length hraw
    have hp := congrArg List.length hb.map_raw
    have hle := hb.length_le
    rw [List.length_map, List.length_map] at hl
    rw [List.length_map] at hp
    omega
  · rename_i hmany
    have hle : target.declarations.length ≤ given.length := by omega
    constructor
    · intro h
      split at h
      · cases h
      · rename_i parameters hbound
        exact ⟨parameters, (Except.ok.inj h).symm, (bindAll_eq_ok_iff hraw hle).mp hbound⟩
    · rintro ⟨parameters, rfl, hb⟩
      rw [(bindAll_eq_ok_iff hraw hle).mpr hb]

theorem number_eq_ok_iff {name : String} {nameStart : Nat} {written : List Char}
    {step : TextStep} :
    number context compilers name nameStart written = .ok step ↔
      ∃ form, compilers.number (String.ofList written) = .ok form ∧
        step = .number { Expression.ofRaw context.world (String.ofList written) with
          number := .ready form } := by
  simp only [number]
  constructor
  · intro h
    split at h
    · rename_i expression he
      obtain ⟨form, hform, rfl⟩ := prepareNumberWith_eq_none_iff.mp he
      exact ⟨form, hform, (Except.ok.inj h).symm⟩
    · cases h
  · rintro ⟨form, hform, rfl⟩
    rw [prepareNumberWith_eq_none_iff.mpr ⟨form, hform, rfl⟩]

end TextTerm

/-- A call is its names with what of the text behind them runs to the closing parenthesis. -/
theorem Callee.Splits.written_append_take {text : List Char} {callee : Callee} {spaces : Nat}
    {inside rest : List Char} (hs : callee.Splits text)
    (ho : callee.tail = List.replicate spaces ' ' ++ '(' :: (inside ++ ')' :: rest)) :
    callee.written ++ callee.tail.take (callee.tail.length - rest.length) =
      (callee.site spaces inside).span := by
  have htail : callee.tail = List.replicate spaces ' ' ++ '(' :: (inside ++ [')']) ++ rest := by
    rw [ho]
    simp
  have htake : callee.tail.take (callee.tail.length - rest.length) =
      List.replicate spaces ' ' ++ '(' :: (inside ++ [')']) := by
    rw [htail, List.length_append, Nat.add_sub_cancel, List.take_left']
    rfl
  rw [htake]
  cases hm : callee.member with
  | none =>
    obtain rfl := hs.spaces_eq_zero hm ho
    simp [WrittenCall.span, WrittenCall.head, Callee.site, Callee.written, hm]
  | some member => simp [WrittenCall.span, WrittenCall.head, Callee.site, Callee.written, hm]

/-- What a call in a text gives is what it becomes as it is written. -/
theorem TextTerm.ofList_eq_ok_iff {text : List Char} {callee : Callee} {nameStart spaces : Nat}
    {list : ArgumentList} {inside rest : List Char} {step : TextStep} (hs : callee.Splits text)
    (ho : callee.tail = List.replicate spaces ' ' ++ '(' :: (inside ++ ')' :: rest))
    (hl : list.texts = (callee.site spaces inside).arguments) :
    ofList context compilers nameStart callee list rest = .ok step ↔
      (callee.site spaces inside).Becomes context.world compilers step := by
  have hname : String.ofList callee.function = (callee.site spaces inside).function := by
    rw [Callee.function, Callee.site, WrittenCall.function]
    cases callee.member <;> rfl
  have hreceiver : callee.receiver? = (callee.site spaces inside).receiver? := by
    rw [Callee.receiver?, Callee.site, WrittenCall.receiver?]
    cases callee.member <;> rfl
  have hspan := hs.written_append_take ho
  simp only [ofList, hname, hreceiver, hspan]
  constructor
  · intro h
    split at h
    · rename_i target ht
      obtain ⟨parameters, rfl, hb⟩ := call_eq_ok_iff.mp h
      exact .call ht (hl ▸ hb)
    · rename_i ht
      obtain ⟨form, hn, rfl⟩ := number_eq_ok_iff.mp h
      exact .number ht hn
  · intro h
    cases h with
    | call ht hb =>
      rw [ht]
      exact call_eq_ok_iff.mpr ⟨_, rfl, hl ▸ hb⟩
    | number ht hn =>
      rw [ht]
      exact number_eq_ok_iff.mpr ⟨_, hn, rfl⟩

end SceneFormula
