import SceneFormula.Formula.Classification
import SceneFormula.Formula.Compile
import SceneFormula.Proofs.TextLanguage

/-! The state of an expression over runs. Whatever is asked of it, and in whatever contexts, its two
forms are those of the latest compiles, and its fault is the latest one that was to be kept. -/
namespace SceneFormula

inductive Request where
  | prepareNumber
  | prepareText
  | prepareBoth
  | numberForm
  | textForm
  deriving DecidableEq, Repr

/-- A compile of one form, which answers for the text of the expression. -/
structure Compile where
  kind : ResultKind
  context : Context

namespace Compile

def fault? (raw : String) (compile : Compile) : Option Fault :=
  match compile.kind with
  | .number =>
    match compile.context.compileNumber raw with
    | .ok _ => none
    | .error fault => some fault
  | .text =>
    match compile.context.compileText raw with
    | .ok _ => none
    | .error fault => some fault

def kept? (raw : String) (compile : Compile) : Option Fault :=
  if compile.context.options.diagnostics then compile.fault? raw else none

def latest? (kind : ResultKind) (compiles : List Compile) : Option Context :=
  (compiles.filter (·.kind = kind)).getLast?.map (·.context)

theorem latest?_append (kind : ResultKind) (compiles : List Compile) (compile : Compile) :
    latest? kind (compiles ++ [compile]) =
      if compile.kind = kind then some compile.context else latest? kind compiles := by
  unfold latest?
  split <;> rename_i h <;> simp [List.filter_append, h]

end Compile

def Preparation.ofAnswer {α : Type} : Option (Except Fault α) → Preparation α
  | none => .absent
  | some (.ok form) => .ready form
  | some (.error _) => .failed

theorem Preparation.form?_ofAnswer {α : Type} (default : α) (answer : Option (Except Fault α)) :
    (ofAnswer answer).form? default = answer.map (·.toOption.getD default) := by
  rcases answer with _ | _ | _ <;> rfl

theorem Preparation.succeeded?_ofAnswer {α : Type} (answer : Option (Except Fault α)) :
    (ofAnswer answer).succeeded? = answer.map (·.toBool) := by
  rcases answer with _ | _ | _ <;> rfl

namespace Expression

def after (context : Context) (expression : Expression) : Request → Expression
  | .prepareNumber => (expression.prepareNumber context).2
  | .prepareText => (expression.prepareText context).2
  | .prepareBoth => (expression.prepareBoth context).2
  | .numberForm => (expression.numberForm context).2
  | .textForm => (expression.textForm context).2

/-- The compiles for which a request calls. A form is asked for without one once it exists. -/
def compiles (context : Context) (expression : Expression) : Request → List Compile
  | .prepareNumber => [⟨.number, context⟩]
  | .prepareText => [⟨.text, context⟩]
  | .prepareBoth => [⟨.number, context⟩, ⟨.text, context⟩]
  | .numberForm =>
    match expression.number with
    | .absent => [⟨.number, context⟩]
    | _ => []
  | .textForm =>
    match expression.text with
    | .absent => [⟨.text, context⟩]
    | _ => []

def run (expression : Expression) : List (Request × Context) → Expression
  | [] => expression
  | (request, context) :: rest => (expression.after context request).run rest

def history (expression : Expression) : List (Request × Context) → List Compile
  | [] => []
  | (request, context) :: rest =>
    expression.compiles context request ++ (expression.after context request).history rest

/-- What an expression is after compiles of its text. -/
structure Reflects (world : World) (source : String) (done : List Compile)
    (expression : Expression) : Prop where
  raw : expression.raw = source
  identifier : expression.identifier = world.identifier? source
  number : expression.number =
    .ofAnswer ((Compile.latest? .number done).map (·.compileNumber source))
  text : expression.text = .ofAnswer ((Compile.latest? .text done).map (·.compileText source))
  fault : expression.fault = (done.filterMap (·.kept? source)).getLast?

/-- Preparing the numeric form touches that and the fault. -/
theorem prepareNumber_eq (expression : Expression) (context : Context) :
    (expression.prepareNumber context).2 =
      { expression with
        number := .ofAnswer (some (context.compileNumber expression.raw))
        fault := (Compile.kept? expression.raw ⟨.number, context⟩).or expression.fault } := by
  have hcompile : (context.compilersAt 0).number expression.raw =
      context.compileNumber expression.raw := rfl
  simp only [prepareNumber, prepareNumberWith, hcompile, Compile.kept?, Compile.fault?, record]
  cases context.compileNumber expression.raw <;> cases context.options.diagnostics <;> rfl

/-- Preparing the text form touches that and the fault. -/
theorem prepareText_eq (expression : Expression) (context : Context) :
    (expression.prepareText context).2 =
      { expression with
        text := .ofAnswer (some (context.compileText expression.raw))
        fault := (Compile.kept? expression.raw ⟨.text, context⟩).or expression.fault } := by
  have hcompile : (context.compilersAt 0).text expression.raw =
      context.compileText expression.raw := rfl
  simp only [prepareText, prepareTextWith, hcompile, Compile.kept?, Compile.fault?, record]
  cases context.compileText expression.raw <;> cases context.options.diagnostics <;> rfl

/-- A numeric form that exists is given as it is. -/
theorem numberForm_eq (expression : Expression) (context : Context) :
    (expression.numberForm context).2 =
      match expression.number with
      | .absent => (expression.prepareNumber context).2
      | _ => expression := by
  unfold numberForm
  cases expression.number <;> rfl

/-- A text form that exists is given as it is. -/
theorem textForm_eq (expression : Expression) (context : Context) :
    (expression.textForm context).2 =
      match expression.text with
      | .absent => (expression.prepareText context).2
      | _ => expression := by
  unfold textForm
  cases expression.text <;> rfl

section Separation
variable (expression : Expression) (context : Context)

theorem text_prepareNumber : (expression.prepareNumber context).2.text = expression.text := by
  rw [prepareNumber_eq]

theorem number_prepareText : (expression.prepareText context).2.number = expression.number := by
  rw [prepareText_eq]

theorem text_numberForm : (expression.numberForm context).2.text = expression.text := by
  rw [numberForm_eq]
  split
  · exact text_prepareNumber expression context
  · rfl

theorem number_textForm : (expression.textForm context).2.number = expression.number := by
  rw [textForm_eq]
  split
  · exact number_prepareText expression context
  · rfl

variable {expression}

theorem numberForm_of_ne (h : expression.number ≠ .absent) :
    (expression.numberForm context).2 = expression := by
  rw [numberForm_eq]
  split
  · rename_i ha
    exact absurd ha h
  · rfl

theorem textForm_of_ne (h : expression.text ≠ .absent) :
    (expression.textForm context).2 = expression := by
  rw [textForm_eq]
  split
  · rename_i ha
    exact absurd ha h
  · rfl

end Separation

namespace Reflects
variable {world : World} {source : String} {done : List Compile} {expression : Expression}

theorem ofRaw (world : World) (source : String) :
    Reflects world source [] (.ofRaw world source) :=
  ⟨rfl, rfl, rfl, rfl, rfl⟩

theorem prepareNumber (h : Reflects world source done expression) (context : Context) :
    Reflects world source (done ++ [⟨.number, context⟩]) (expression.prepareNumber context).2 := by
  rw [prepareNumber_eq, h.raw]
  constructor
  · rfl
  · exact h.identifier
  · simp [Compile.latest?_append]
  · simp [Compile.latest?_append, h.text]
  · simp [h.fault]

theorem prepareText (h : Reflects world source done expression) (context : Context) :
    Reflects world source (done ++ [⟨.text, context⟩]) (expression.prepareText context).2 := by
  rw [prepareText_eq, h.raw]
  constructor
  · rfl
  · exact h.identifier
  · simp [Compile.latest?_append, h.number]
  · simp [Compile.latest?_append]
  · simp [h.fault]

/-- Every request adds the compiles for which it calls. -/
theorem after (h : Reflects world source done expression) (context : Context) (request : Request) :
    Reflects world source (done ++ expression.compiles context request)
      (expression.after context request) := by
  cases request with
  | prepareNumber => exact h.prepareNumber context
  | prepareText => exact h.prepareText context
  | prepareBoth =>
    have hboth := (h.prepareNumber context).prepareText context
    rw [List.append_assoc] at hboth
    exact hboth
  | numberForm =>
    rw [Expression.after, numberForm_eq, compiles]
    cases expression.number with
    | absent => exact h.prepareNumber context
    | failed => exact (List.append_nil done).symm ▸ h
    | ready form => exact (List.append_nil done).symm ▸ h
  | textForm =>
    rw [Expression.after, textForm_eq, compiles]
    cases expression.text with
    | absent => exact h.prepareText context
    | failed => exact (List.append_nil done).symm ▸ h
    | ready form => exact (List.append_nil done).symm ▸ h

theorem run (h : Reflects world source done expression) (requests : List (Request × Context)) :
    Reflects world source (done ++ expression.history requests) (expression.run requests) := by
  induction requests generalizing done expression with
  | nil => exact (List.append_nil done).symm ▸ h
  | cons first rest ih =>
    obtain ⟨request, context⟩ := first
    have hrest := ih (h.after context request)
    rw [List.append_assoc] at hrest
    exact hrest

end Reflects

/-- Over every run the text of an expression and what is read off it stay, each form is the one of
its latest compile, and the fault is the one of the latest compile that failed with faults kept. A
request for one form leaves the other one alone, and a form that exists is not made anew. -/
theorem run_ofRaw (world : World) (source : String) (requests : List (Request × Context)) :
    let done := (ofRaw world source).history requests
    let expression := (ofRaw world source).run requests
    (expression.raw = source ∧ expression.comparison? = Comparison.ofSymbol? source ∧
      expression.modification? = Modification.ofSymbol? source ∧
      expression.identifier = world.identifier? source) ∧
    (expression.number.form? .zero = (Compile.latest? .number done).map fun context =>
        (context.compileNumber source).toOption.getD .zero) ∧
    (expression.number.succeeded? = (Compile.latest? .number done).map fun context =>
        (context.compileNumber source).toBool) ∧
    (expression.text.form? .empty = (Compile.latest? .text done).map fun context =>
        (context.compileText source).toOption.getD .empty) ∧
    (expression.text.succeeded? = (Compile.latest? .text done).map fun context =>
        (context.compileText source).toBool) ∧
    expression.fault = (done.filterMap (·.kept? source)).getLast? ∧
    ∀ context,
      ((expression.after context .prepareNumber).text = expression.text ∧
        (expression.after context .numberForm).text = expression.text) ∧
      ((expression.after context .prepareText).number = expression.number ∧
        (expression.after context .textForm).number = expression.number) ∧
      (expression.number ≠ .absent → expression.after context .numberForm = expression) ∧
      (expression.text ≠ .absent → expression.after context .textForm = expression) := by
  intro done expression
  have h : Reflects world source done expression := (Reflects.ofRaw world source).run requests
  refine ⟨⟨h.raw, ?_, ?_, h.identifier⟩, ?_, ?_, ?_, ?_, h.fault, fun context =>
    ⟨⟨text_prepareNumber expression context, text_numberForm expression context⟩,
      ⟨number_prepareText expression context, number_textForm expression context⟩,
      numberForm_of_ne context, textForm_of_ne context⟩⟩
  · rw [comparison?, h.raw]
  · rw [modification?, h.raw]
  · rw [h.number, Preparation.form?_ofAnswer, Option.map_map]
    rfl
  · rw [h.number, Preparation.succeeded?_ofAnswer, Option.map_map]
    rfl
  · rw [h.text, Preparation.form?_ofAnswer, Option.map_map]
    rfl
  · rw [h.text, Preparation.succeeded?_ofAnswer, Option.map_map]
    rfl

/-- A number is asked for in a world that knows no function, and a text is prepared there without
diagnostics. Both fail, and only the first fault is kept. In a world that knows the function the
number is not made anew until it is prepared, and the text stays as it is. -/
theorem run_ofRaw_sample :
    let source := "1 + Player.X()"
    let known := Context.textSample
    let stranger : Context := ⟨.ofTables {} {} {}, {}⟩
    let silent : Context := ⟨stranger.world, { diagnostics := false }⟩
    let asked := (ofRaw known.world source).run
      [(.numberForm, stranger), (.prepareText, silent), (.numberForm, known)]
    let expression := (ofRaw known.world source).run
      [(.numberForm, stranger), (.prepareText, silent), (.numberForm, known),
        (.prepareNumber, known), (.textForm, known)]
    asked.number.succeeded? = some false ∧ expression.number.succeeded? = some true ∧
      expression.text.succeeded? = some false ∧
      expression.fault = some (.arithmeticSyntax "unexpected character '.' at 10") ∧
      (expression.number ≠ .absent ∧ expression.after stranger .numberForm = expression) ∧
      expression.text ≠ .absent ∧ expression.after known .textForm = expression := by
  intro source known stranger silent asked expression
  obtain ⟨-, -, hasked, -⟩ := run_ofRaw known.world source
    [(.numberForm, stranger), (.prepareText, silent), (.numberForm, known)]
  obtain ⟨-, -, hnumber, -, htext, hfault, hsteps⟩ := run_ofRaw known.world source
    [(.numberForm, stranger), (.prepareText, silent), (.numberForm, known),
      (.prepareNumber, known), (.textForm, known)]
  have hready : expression.number.succeeded? = some true := hnumber.trans (by decide +kernel)
  have hfailed : expression.text.succeeded? = some false := htext.trans (by decide +kernel)
  have hn : expression.number ≠ .absent := by
    intro ha
    rw [ha] at hready
    cases hready
  have ht : expression.text ≠ .absent := by
    intro ha
    rw [ha] at hfailed
    cases hfailed
  exact ⟨hasked.trans (by decide +kernel), hready, hfailed, hfault.trans (by decide +kernel),
    ⟨hn, (hsteps stranger).2.2.1 hn⟩, ht, (hsteps known).2.2.2 ht⟩

end Expression
end SceneFormula
