import SceneFormula.Formula.Numeric
import SceneFormula.Proofs.ArgumentLists

namespace SceneFormula
open Source (ArgumentList)

/-- The parameter that a text becomes where it is to be treated in some way. -/
inductive Binds (world : World) (compilers : Compilers) : Treatment → String → Expression → Prop
  | number {raw : String} {form : NumericForm} (h : compilers.number raw = .ok form) :
    Binds world compilers .number raw { Expression.ofRaw world raw with number := .ready form }
  | text {raw : String} {form : TextForm} (h : compilers.text raw = .ok form) :
    Binds world compilers .text raw { Expression.ofRaw world raw with text := .ready form }
  | verbatim {raw : String} : Binds world compilers .verbatim raw (.ofRaw world raw)

/-- The parameters that texts become under as many declarations, of which some may be left. -/
inductive BindsAll (world : World) (compilers : Compilers) :
    List Declaration → List (List Char) → List Expression → Prop
  | none {declarations : List Declaration} : BindsAll world compilers declarations [] []
  | more {declaration : Declaration} {declarations : List Declaration} {text : List Char}
    {texts : List (List Char)} {parameter : Expression} {parameters : List Expression}
    (h : Binds world compilers declaration.kind.treatment (String.ofList text) parameter)
    (ht : BindsAll world compilers declarations texts parameters) :
    BindsAll world compilers (declaration :: declarations) (text :: texts)
      (parameter :: parameters)

structure Calls (world : World) (compilers : Compilers) (target : Target)
    (texts : List (List Char)) (call : NumericCall) : Prop where
  routine : call.routine = target.routine
  parameters : ∃ bound, call.parameters = target.receivers.map (.ofRaw world) ++ bound ∧
    BindsAll world compilers (target.declarations.drop target.receivers.length) texts bound
  atLeast : mandatoryCount target.declarations ≤ call.parameters.length
  atMost : call.parameters.length ≤ target.declarations.length

def Expression.outcome : Option Fault × Expression → Except Fault Expression
  | (some fault, _) => .error fault
  | (none, expression) => .ok expression

variable {context : Context} {compilers : Compilers}

theorem Binds.raw {world : World} {treatment : Treatment} {raw : String} {parameter : Expression}
    (h : Binds world compilers treatment raw parameter) : parameter.raw = raw := by
  cases h <;> rfl

theorem BindsAll.map_raw {world : World} {declarations : List Declaration}
    {texts : List (List Char)} {parameters : List Expression}
    (h : BindsAll world compilers declarations texts parameters) :
    parameters.map (·.raw) = texts.map String.ofList := by
  induction h with
  | none => rfl
  | more hb _ ih => rw [List.map_cons, List.map_cons, hb.raw, ih]

theorem BindsAll.length {world : World} {declarations : List Declaration}
    {texts : List (List Char)} {parameters : List Expression}
    (h : BindsAll world compilers declarations texts parameters) :
    parameters.length = texts.length := by
  simpa using congrArg List.length h.map_raw

theorem bindTo_eq_none_iff {declaration : Declaration} {base : Nat} {raw : String}
    {parameter : Expression} :
    (Expression.ofRaw context.world raw).bindTo compilers context.options declaration base =
        (none, parameter) ↔
      Binds context.world compilers declaration.kind.treatment raw parameter := by
  unfold Expression.bindTo
  cases declaration.kind.treatment with
  | number =>
    simp only [Expression.prepareNumberWith, Expression.ofRaw]
    cases hc : compilers.number raw with
    | ok form =>
      constructor
      · intro h
        obtain rfl := (Prod.mk.inj h).2
        exact .number hc
      · intro h
        cases h with
        | number hform =>
          rw [hc] at hform
          obtain rfl := Except.ok.inj hform
          rfl
    | error fault =>
      refine ⟨fun h => by simp at h, fun h => ?_⟩
      cases h with
      | number hform => rw [hc] at hform; cases hform
  | text =>
    simp only [Expression.prepareTextWith, Expression.ofRaw]
    cases hc : compilers.text raw with
    | ok form =>
      constructor
      · intro h
        obtain rfl := (Prod.mk.inj h).2
        exact .text hc
      · intro h
        cases h with
        | text hform =>
          rw [hc] at hform
          obtain rfl := Except.ok.inj hform
          rfl
    | error fault =>
      refine ⟨fun h => by simp at h, fun h => ?_⟩
      cases h with
      | text hform => rw [hc] at hform; cases hform
  | verbatim =>
    constructor
    · intro h
      obtain rfl := (Prod.mk.inj h).2
      exact .verbatim
    · intro h
      cases h
      rfl

private theorem addParameter_sound {declarations : List Declaration}
    {parameters grown : List Expression} {raw : String} {base : Nat}
    (h : addParameter context compilers declarations parameters raw base = (none, grown)) :
    ∃ parameter, grown = parameters ++ [parameter] ∧
      ∀ declaration, declarations[parameters.length]? = some declaration →
        Binds context.world compilers declaration.kind.treatment raw parameter := by
  simp only [addParameter] at h
  split at h
  · rename_i declaration hd
    obtain ⟨fault, parameter, hbind⟩ : ∃ fault parameter,
        (Expression.ofRaw context.world raw).bindTo compilers context.options declaration base =
          (fault, parameter) := ⟨_, _, rfl⟩
    rw [hbind] at h
    obtain ⟨rfl, rfl⟩ := Prod.mk.inj h
    refine ⟨parameter, rfl, fun other ho => ?_⟩
    obtain rfl := Option.some.inj (hd.symm.trans ho)
    exact bindTo_eq_none_iff.mp hbind
  · rename_i hd
    refine ⟨_, (Prod.mk.inj h).2.symm, fun other ho => ?_⟩
    rw [hd] at ho
    cases ho

namespace NumericCall

private theorem addAll_sound {declarations : List Declaration} {arguments : List Source.Argument}
    {parameters all : List Expression}
    (h : addAll context compilers declarations parameters arguments = .ok all)
    (hl : all.length ≤ declarations.length) :
    ∃ bound, all = parameters ++ bound ∧ BindsAll context.world compilers
      (declarations.drop parameters.length) (arguments.map (·.text)) bound := by
  induction arguments generalizing parameters with
  | nil =>
    obtain rfl := Except.ok.inj h
    exact ⟨[], (List.append_nil _).symm, .none⟩
  | cons written rest ih =>
    rw [addAll] at h
    split at h
    · cases h
    · rename_i grown hadd
      obtain ⟨bound, hall, hb⟩ := ih h
      obtain ⟨parameter, rfl, hparameter⟩ := addParameter_sound hadd
      rw [List.append_assoc] at hall
      have hlt : parameters.length < declarations.length := by
        rw [hall, List.length_append, List.length_append, List.length_singleton] at hl
        omega
      refine ⟨parameter :: bound, hall, ?_⟩
      rw [List.drop_eq_getElem_cons hlt, List.map_cons]
      refine .more (hparameter _ (List.getElem?_eq_getElem hlt)) ?_
      simpa using hb

private theorem addAll_complete {declarations : List Declaration}
    {arguments : List Source.Argument} {parameters bound : List Expression}
    (h : BindsAll context.world compilers (declarations.drop parameters.length)
      (arguments.map (·.text)) bound) :
    addAll context compilers declarations parameters arguments = .ok (parameters ++ bound) := by
  induction arguments generalizing parameters bound with
  | nil =>
    obtain rfl : bound = [] := List.eq_nil_of_length_eq_zero h.length
    rw [addAll, List.append_nil]
  | cons written rest ih =>
    generalize hd : declarations.drop parameters.length = left at h
    cases h with
    | @more declaration others text texts parameter bound hb ht =>
      have hdeclared : declarations[parameters.length]? = some declaration := by
        rw [← List.head?_drop, hd, List.head?_cons]
      have hothers : declarations.drop (parameters ++ [parameter]).length = others := by
        rw [List.length_append, ← List.drop_drop, hd]
        rfl
      have hadd : addParameter context compilers declarations parameters
          (String.ofList written.text) written.start = (none, parameters ++ [parameter]) := by
        rw [addParameter, hdeclared]
        simp only [bindTo_eq_none_iff.mpr hb]
      rw [addAll, hadd]
      simp only
      rw [ih (hothers.symm ▸ ht), List.append_assoc]
      rfl

/-- A call is made if and only if its list is closed, its parameters can be prepared as declared,
and their number is in range. -/
theorem ofList_eq_ok_iff {target : Target} {nameEnd : Nat} {list : ArgumentList}
    {call : NumericCall} {rest : List Char} :
    ofList context compilers target nameEnd list = .ok (call, rest) ↔
      list.rest = some rest ∧
        Calls context.world compilers target (ArgumentList.trimmed list.texts) call := by
  rw [← ArgumentList.map_text_given]
  constructor
  · intro h
    refine ⟨rest_of_ofList h, ?_⟩
    simp only [ofList] at h
    split at h
    · cases h
    · rename_i parameters hadd
      split at h
      · cases h
      · split at h
        · rename_i hcount
          obtain ⟨rfl, rfl⟩ := Prod.mk.inj (Except.ok.inj h)
          obtain ⟨bound, hall, hb⟩ := addAll_sound hadd hcount.2
          exact ⟨rfl, ⟨bound, hall, by simpa using hb⟩, hcount.1, hcount.2⟩
        · cases h
  · rintro ⟨hr, hroutine, ⟨bound, hp, hb⟩, hmin, hmax⟩
    obtain ⟨routine, parameters⟩ := call
    obtain rfl := hroutine
    obtain rfl := hp
    have hadd : addAll context compilers target.declarations
        (target.receivers.map (.ofRaw context.world)) list.given =
          .ok (target.receivers.map (.ofRaw context.world) ++ bound) :=
      addAll_complete (by simpa using hb)
    simp only [ofList, hadd, hr]
    rw [if_pos ⟨hmin, hmax⟩]

end NumericCall
end SceneFormula
