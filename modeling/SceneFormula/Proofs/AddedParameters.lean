import SceneFormula.Proofs.Nesting

/-! What becomes of parameters that are added to a list one after the other. Each one is put at the
end, whether it can be prepared or not, and the next one is added behind it in either case. A fault
is told as one of the text around the parameter; the parameter itself keeps it as one of its own. -/
namespace SceneFormula

def Fault.ofAnswer? {α : Type} : Except Fault α → Option Fault
  | .ok _ => none
  | .error fault => some fault

theorem Fault.ofAnswer?_eq_none_iff {α : Type} {answer : Except Fault α} :
    ofAnswer? answer = none ↔ ∃ value, answer = .ok value := by
  cases answer <;> simp [ofAnswer?]

theorem Fault.ofAnswer?_eq_some_iff {α : Type} {answer : Except Fault α} {fault : Fault} :
    ofAnswer? answer = some fault ↔ answer = .error fault := by
  cases answer <;> simp [ofAnswer?]

def Compilers.fault? (compilers : Compilers) (raw : String) : Treatment → Option Fault
  | .number => Fault.ofAnswer? (compilers.number raw)
  | .text => Fault.ofAnswer? (compilers.text raw)
  | .verbatim => none

def Compilers.faultAt? (compilers : Compilers) (options : Options) (raw : String) (base : Nat) :
    Option Declaration → Option Fault
  | some declaration => (compilers.fault? raw declaration.kind.treatment).map (·.movedBy base)
  | none => if options.diagnostics then some (.tooManyParameters base) else none

/-- An expression whose text could not be prepared as it is to be treated. The form that was asked
for is the one that stands for a failure, and the fault is kept where faults are. -/
structure Expression.Failed (context : Context) (treatment : Treatment) (source : String)
    (own : Fault) (expression : Expression) : Prop where
  raw : expression.raw = source
  identifier : expression.identifier = context.world.identifier? source
  number : expression.number.form? .zero = if treatment = .number then some .zero else none
  numberMark : expression.number.succeeded? = if treatment = .number then some false else none
  text : expression.text.form? .empty = if treatment = .text then some .empty else none
  textMark : expression.text.succeeded? = if treatment = .text then some false else none
  fault : expression.fault = if context.options.diagnostics then some own else none

/-- The answer when a parameter that starts at `base` is added, and the entry of the list that it
becomes, by what is declared at its place. -/
inductive Added (context : Context) (compilers : Compilers) (raw : String) (base : Nat) :
    Option Declaration → Option Fault → Expression → Prop
  | surplus : Added context compilers raw base none
    (if context.options.diagnostics then some (.tooManyParameters base) else none)
    (.ofRaw context.world raw)
  | bound {declaration : Declaration} {entry : Expression}
    (h : Binds context.world compilers declaration.kind.treatment raw entry) :
    Added context compilers raw base (some declaration) none entry
  | refused {declaration : Declaration} {fault : Fault} {entry : Expression}
    (h : compilers.fault? raw declaration.kind.treatment = some fault)
    (he : entry.Failed context declaration.kind.treatment raw fault) :
    Added context compilers raw base (some declaration) (some (fault.movedBy base)) entry

variable (context : Context) {compilers : Compilers}

theorem Compilers.fault?_eq_none_iff {treatment : Treatment} {raw : String} :
    compilers.fault? raw treatment = none ↔
      ∃ parameter, Binds context.world compilers treatment raw parameter := by
  cases treatment with
  | number =>
    refine Fault.ofAnswer?_eq_none_iff.trans ⟨fun ⟨form, h⟩ => ⟨_, .number h⟩, fun ⟨_, h⟩ => ?_⟩
    cases h with
    | number h => exact ⟨_, h⟩
  | text =>
    refine Fault.ofAnswer?_eq_none_iff.trans ⟨fun ⟨form, h⟩ => ⟨_, .text h⟩, fun ⟨_, h⟩ => ?_⟩
    cases h with
    | text h => exact ⟨_, h⟩
  | verbatim => exact ⟨fun _ => ⟨_, .verbatim⟩, fun _ => rfl⟩

theorem Added.raw {raw : String} {base : Nat} {declared : Option Declaration}
    {answer : Option Fault} {entry : Expression}
    (h : Added context compilers raw base declared answer entry) : entry.raw = raw := by
  cases h with
  | surplus => rfl
  | bound h => exact h.raw
  | refused _ he => exact he.raw

theorem Added.answer_eq {raw : String} {base : Nat} {declared : Option Declaration}
    {answer : Option Fault} {entry : Expression}
    (h : Added context compilers raw base declared answer entry) :
    answer = compilers.faultAt? context.options raw base declared := by
  cases h with
  | surplus => rfl
  | bound h =>
    rw [Compilers.faultAt?, (Compilers.fault?_eq_none_iff context).mpr ⟨_, h⟩]
    rfl
  | refused h he =>
    rw [Compilers.faultAt?, h]
    rfl

/-- A text that cannot be prepared fails with its own fault, moved to where it starts. -/
private theorem exists_failed {declaration : Declaration} {raw : String} {fault : Fault}
    (h : compilers.fault? raw declaration.kind.treatment = some fault) (base : Nat) :
    ∃ entry, (Expression.ofRaw context.world raw).bindTo compilers context.options declaration
        base = (some (fault.movedBy base), entry) ∧
      entry.Failed context declaration.kind.treatment raw fault := by
  unfold Expression.bindTo
  cases ht : declaration.kind.treatment with
  | number =>
    rw [ht, Compilers.fault?, Fault.ofAnswer?_eq_some_iff] at h
    simp only [Expression.prepareNumberWith, Expression.ofRaw, h, Expression.record]
    refine ⟨_, rfl, ?_⟩
    split <;> rename_i hd <;> exact ⟨rfl, rfl, rfl, rfl, rfl, rfl, by simp [hd]⟩
  | text =>
    rw [ht, Compilers.fault?, Fault.ofAnswer?_eq_some_iff] at h
    simp only [Expression.prepareTextWith, Expression.ofRaw, h, Expression.record]
    refine ⟨_, rfl, ?_⟩
    split <;> rename_i hd <;> exact ⟨rfl, rfl, rfl, rfl, rfl, rfl, by simp [hd]⟩
  | verbatim =>
    rw [ht] at h
    cases h

variable (compilers) (declarations : List Declaration)

/-- Adding a parameter puts one entry behind the others, which stay as they are. -/
theorem exists_added (parameters : List Expression) (raw : String) (base : Nat) :
    ∃ answer entry,
      addParameter context compilers declarations parameters raw base =
        (answer, parameters ++ [entry]) ∧
      Added context compilers raw base declarations[parameters.length]? answer entry := by
  unfold addParameter
  cases declarations[parameters.length]? with
  | none => exact ⟨_, _, rfl, .surplus⟩
  | some declaration =>
    cases hf : compilers.fault? raw declaration.kind.treatment with
    | none =>
      obtain ⟨entry, hb⟩ := (Compilers.fault?_eq_none_iff context).mp hf
      simp only [bindTo_eq_none_iff.mpr hb]
      exact ⟨_, _, rfl, .bound hb⟩
    | some fault =>
      obtain ⟨entry, he, hfailed⟩ := exists_failed context hf base
      simp only [he]
      exact ⟨_, _, rfl, .refused hf hfailed⟩

end SceneFormula
