import SceneFormula.Proofs.Parameters

/-! How two runs over one text can answer. A run with fewer levels may stop at a place where the
other one goes on; a run that keeps no faults may tell another fault. What is allowed is a pairing
of faults, and the answers to the parts of a text are put together whatever the pairing is. -/
namespace SceneFormula

/-- What becomes of a place that goes over a limit. -/
inductive Excess where
  | told
  | hidden
  deriving DecidableEq

structure Gauges where
  number : NumericForm → Option Excess
  text : TextForm → Option Excess

def Gauges.none : Gauges where
  number _ := .none
  text _ := .none

section Measures
variable (gauges : Gauges)

def Expression.excess? (expression : Expression) : Option Excess :=
  match expression.number, expression.text with
  | .ready form, _ => gauges.number form
  | _, .ready form => gauges.text form
  | _, _ => none

def NumericCall.excess? (call : NumericCall) : Option Excess :=
  call.parameters.findSome? (·.excess? gauges)

def TextStep.excess? : TextStep → Option Excess
  | .literal _ => none
  | .call _ parameters => parameters.findSome? (·.excess? gauges)
  | .number expression => (expression.excess? gauges).map fun _ => .hidden

theorem Expression.excess?_ofRaw (world : World) (raw : String) :
    (Expression.ofRaw world raw).excess? gauges = none := rfl

end Measures

def Fault.isSurplus : Fault → Bool
  | .tooManyParameters _ => true
  | _ => false

/-- Which faults of two runs may stand beside each other: those in which a place shows that stops
the first run only, and what the first run may say where the second one fails, if it fails at all. A
pairing is kept where faults are moved into the text around them, or hidden by a number in a text.
Where the first run may stop alone or go on alone, it may say anything later on. -/
structure Pairing where
  Shows : Excess → Fault → Prop
  Meets : Option Fault → Fault → Prop
  shows_movedBy {excess : Excess} {fault : Fault} (h : Shows excess fault) (base : Nat) :
    Shows excess (fault.movedBy base)
  shows_hidden {excess : Excess} {fault : Fault} (h : Shows excess fault) (name : String)
    (position : Nat) : Shows .hidden (.unrecognizedFunction name position)
  meets_movedBy {one other : Fault} (h : Meets (some one) other) (base : Nat) :
    Meets (some (one.movedBy base)) (other.movedBy base)
  meets_self {fault : Fault} {position : Nat} (hp : fault.position = some position)
    (hs : fault.isSurplus = false) : Meets (some fault) fault
  meets_of_shows {excess : Excess} {fault : Fault} (h : Shows excess fault) (one : Option Fault)
    (other : Fault) : Meets one other
  meets_of_none {fault : Fault} (h : Meets none fault) (one : Option Fault) (other : Fault) :
    Meets one other

/-- How the faults of two runs are related that both fail where one of them does. -/
structure FaultRelation where
  Relates : Fault → Fault → Prop
  movedBy {one other : Fault} (h : Relates one other) (base : Nat) :
    Relates (one.movedBy base) (other.movedBy base)
  self {fault : Fault} {position : Nat} (hp : fault.position = some position)
    (hs : fault.isSurplus = false) : Relates fault fault

def FaultRelation.pairing (relation : FaultRelation) : Pairing where
  Shows _ _ := False
  Meets one other := ∃ fault, one = some fault ∧ relation.Relates fault other
  shows_movedBy h _ := h
  shows_hidden h _ _ := h
  meets_movedBy h base := by
    obtain ⟨fault, he, h⟩ := h
    obtain rfl := Option.some.inj he
    exact ⟨_, rfl, relation.movedBy h base⟩
  meets_self hp hs := ⟨_, rfl, relation.self hp hs⟩
  meets_of_shows h := h.elim
  meets_of_none h := by
    obtain ⟨fault, he, -⟩ := h
    cases he

structure Pairing.TellsLate (pairing : Pairing) : Prop where
  unclosed (position surplus : Nat) : pairing.Meets (some (.unterminatedParentheses position))
    (.tooManyParameters surplus)
  count (position atLeast atMost found surplus : Nat) :
    pairing.Meets (some (.wrongParameterCount position atLeast atMost found))
      (.tooManyParameters surplus)

/-- What two runs do about a surplus parameter: the same, or only the second one tells it. -/
inductive Pairing.Surplus (pairing : Pairing) (one other : Options) : Prop
  | same (h : one.diagnostics = other.diagnostics)
    (hm : ∀ position, pairing.Meets (some (.tooManyParameters position))
      (.tooManyParameters position))
  | untold (h : one.diagnostics = false) (ho : other.diagnostics = true)
    (hl : pairing.TellsLate)

inductive Paired (pairing : Pairing) {α : Type} (excess? : α → Option Excess) :
    Except Fault α → Except Fault α → Prop
  | kept {value : α} (h : excess? value = none) : Paired pairing excess? (.ok value) (.ok value)
  | broken {value : α} {excess : Excess} {fault : Fault} (h : excess? value = some excess)
    (hs : pairing.Shows excess fault) : Paired pairing excess? (.error fault) (.ok value)
  | loose (value : α) {fault : Fault} (h : pairing.Meets none fault) :
    Paired pairing excess? (.ok value) (.error fault)
  | refused {one other : Fault} (h : pairing.Meets (some one) other) :
    Paired pairing excess? (.error one) (.error other)

namespace Paired
variable {pairing : Pairing} {α β : Type} {excess? : α → Option Excess}
  {total? : β → Option Excess} {one other : Except Fault α}

/-- A fault that is found alike by both runs. -/
theorem own {fault : Fault} {position : Nat} (hp : fault.position = some position)
    (hs : fault.isSurplus = false) : Paired pairing excess? (.error fault) (.error fault) :=
  .refused (pairing.meets_self hp hs)

theorem of_meets {fault : Fault} (h : ∀ one, pairing.Meets one fault)
    (answer : Except Fault α) : Paired pairing excess? answer (.error fault) := by
  cases answer with
  | ok value => exact .loose value (h _)
  | error fault => exact .refused (h _)

/-- A place that stops the first run counts, whatever comes behind it. -/
theorem of_shows {excess : Excess} {fault : Fault} (hs : pairing.Shows excess fault)
    (h : ∀ value, other = .ok value → excess? value = some excess) :
    Paired pairing excess? (.error fault) other := by
  cases other with
  | error fault => exact .refused (pairing.meets_of_shows hs _ _)
  | ok value => exact .broken (h value rfl) hs

/-- What is done with the values of two answers, where faults are handed on. -/
theorem andThen {next behind : Except Fault α → Except Fault β}
    (h : Paired pairing excess? one other) (hnext : ∀ fault, next (.error fault) = .error fault)
    (hbehind : ∀ fault, behind (.error fault) = .error fault)
    (hkept : ∀ value, one = .ok value → excess? value = none →
      Paired pairing total? (next (.ok value)) (behind (.ok value)))
    (hbroken : ∀ value excess result, excess? value = some excess →
      behind (.ok value) = .ok result → total? result = some excess) :
    Paired pairing total? (next one) (behind other) := by
  cases h with
  | kept h => exact hkept _ rfl h
  | broken h hs =>
    rw [hnext]
    exact of_shows hs fun result => hbroken _ _ result h
  | loose value h =>
    rw [hbehind]
    exact of_meets (fun one => pairing.meets_of_none h one _) _
  | refused h =>
    rw [hnext, hbehind]
    exact .refused h

/-- Values that are put into others go over a limit as these do. -/
theorem map {next : Except Fault α → Except Fault β} (h : Paired pairing excess? one other)
    (hnext : ∀ fault, next (.error fault) = .error fault)
    (hvalue : ∀ value, ∃ result, next (.ok value) = .ok result ∧
      total? result = excess? value) :
    Paired pairing total? (next one) (next other) := by
  refine h.andThen hnext hnext (fun value _ hv => ?_) fun value excess result hv hr => ?_
  · obtain ⟨result, hr, ht⟩ := hvalue value
    rw [hr]
    exact .kept (ht.trans hv)
  · obtain ⟨other, ho, ht⟩ := hvalue value
    obtain rfl := Except.ok.inj (ho.symm.trans hr)
    exact ht.trans hv

/-- Faults that are told as those of the text around. -/
theorem movedBy {next behind : Except Fault α → Except Fault β}
    (h : Paired pairing excess? one other) (base : Nat)
    (hnext : ∀ fault, next (.error fault) = .error (fault.movedBy base))
    (hbehind : ∀ fault, behind (.error fault) = .error (fault.movedBy base))
    (hvalue : ∀ value, ∃ result, next (.ok value) = .ok result ∧
      behind (.ok value) = .ok result ∧ total? result = excess? value) :
    Paired pairing total? (next one) (behind other) := by
  cases h with
  | @kept value h =>
    obtain ⟨result, hn, hb, ht⟩ := hvalue value
    rw [hn, hb]
    exact .kept (ht.trans h)
  | @broken value excess fault h hs =>
    obtain ⟨result, -, hb, ht⟩ := hvalue value
    rw [hnext, hb]
    exact .broken (ht.trans h) (pairing.shows_movedBy hs base)
  | loose value h =>
    rw [hbehind]
    exact of_meets (fun one => pairing.meets_of_none h one _) _
  | refused h =>
    rw [hnext, hbehind]
    exact .refused (pairing.meets_movedBy h base)

end Paired

namespace FaultRelation
variable {relation : FaultRelation} {α : Type} {excess? : α → Option Excess}
  {one other : Except Fault α}

/-- Both runs accept with the same value, or both fail with related faults. -/
theorem of_paired (h : Paired relation.pairing excess? one other) :
    (∃ value, one = .ok value ∧ other = .ok value) ∨
      ∃ fault told, one = .error fault ∧ other = .error told ∧ relation.Relates fault told := by
  cases h with
  | kept => exact .inl ⟨_, rfl, rfl⟩
  | broken _ hs => exact hs.elim
  | loose _ h =>
    obtain ⟨fault, he, -⟩ := h
    cases he
  | refused h =>
    obtain ⟨fault, he, h⟩ := h
    obtain rfl := Option.some.inj he
    exact .inr ⟨_, _, rfl, rfl, h⟩

theorem paired {fault told : Fault} (h : relation.Relates fault told) :
    Paired relation.pairing excess? (.error fault) (.error told) :=
  .refused ⟨fault, rfl, h⟩

end FaultRelation
end SceneFormula
