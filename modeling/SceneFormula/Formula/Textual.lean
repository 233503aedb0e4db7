import SceneFormula.Call.Callee
import SceneFormula.Formula.Parameter
import SceneFormula.Source.Basic
import SceneFormula.Source.ArgumentList
import SceneFormula.Source.Quoted

/-! Text expressions: quoted texts and calls, joined by one `+` each. A call that means no text
function may still be a number, which is then turned into text. -/
namespace SceneFormula
open Source (ArgumentList splitQuoted unescape width)

def isTextMark (c : Char) : Bool :=
  Callee.isMark c || c == '"'

structure TextTerm where
  step : TextStep
  next : Nat
  rest : List Char

namespace TextTerm

def literal (offset : Nat) (text : List Char) : Except Fault TextTerm :=
  match splitQuoted '"' text with
  | none => .error (.unterminatedQuotes offset)
  | some (body, rest) =>
    .ok ⟨.literal (String.ofList (unescape body)), offset + 1 + width body + 1, rest⟩

def bindAll (compilers : Compilers) (options : Options) :
    List Declaration → List (Expression × Nat) → Except Fault (List Expression)
  | declaration :: declarations, (parameter, base) :: rest =>
    match parameter.bindTo compilers options declaration base with
    | (some fault, _) => .error fault
    | (none, parameter) =>
      match bindAll compilers options declarations rest with
      | .error fault => .error fault
      | .ok others => .ok (parameter :: others)
  | _, rest => .ok (rest.map (·.1))

/-- Where the name of a called function ends. The name of the object counts instead if the other one
runs to the end of the text. -/
def nameEnd (nameStart : Nat) (callee : Callee) : Nat :=
  nameStart + width (if callee.tail = [] then callee.name else callee.written)

/-- A call of a text function with the parameters of a list, an empty last one included. They are
counted before they are prepared, and may be more than declared. -/
def call (context : Context) (compilers : Compilers) (target : Target) (nameStart nameEnd : Nat)
    (list : ArgumentList) : Except Fault TextStep :=
  let expression := Expression.ofRaw context.world
  let parameters := target.receivers.map (fun name => (expression name, nameStart)) ++
    list.arguments.map fun written =>
      (expression (String.ofList written.text), written.start)
  let atLeast := mandatoryCount target.declarations
  let atMost := target.declarations.length
  if parameters.length < atMost ∨ parameters.length < atLeast then
    .error (.wrongParameterCount nameEnd atLeast atMost parameters.length)
  else
    match bindAll compilers context.options target.declarations parameters with
    | .error fault => .error fault
    | .ok parameters => .ok (.call target.routine parameters)

def number (context : Context) (compilers : Compilers) (name : String) (nameStart : Nat)
    (written : List Char) : Except Fault TextStep :=
  let expression := Expression.ofRaw context.world (String.ofList written)
  match expression.prepareNumberWith compilers context.options with
  | (none, expression) => .ok (.number expression)
  | (some _, _) => .error (.unrecognizedFunction name nameStart)

def ofList (context : Context) (compilers : Compilers) (nameStart : Nat) (callee : Callee)
    (list : ArgumentList) (rest : List Char) : Except Fault TextStep :=
  let name := String.ofList callee.function
  match context.world.resolve .text callee.receiver? name with
  | some target => call context compilers target nameStart (nameEnd nameStart callee) list
  | none =>
    let written := callee.written ++ callee.tail.take (callee.tail.length - rest.length)
    number context compilers name nameStart written

def ofCallee (context : Context) (compilers : Compilers) (nameStart : Nat) (callee : Callee) :
    Except Fault TextTerm :=
  match ArgumentList.open? (nameEnd nameStart callee) callee.tail with
  | none => .error (.missingParameterParentheses (nameEnd nameStart callee))
  | some list =>
    match list.rest with
    | none => .error (.unterminatedParentheses (list.stop - 1))
    | some rest =>
      match ofList context compilers nameStart callee list rest with
      | .error fault => .error fault
      | .ok step => .ok ⟨step, list.stop + 1, rest⟩

def read? (context : Context) (compilers : Compilers) (offset : Nat) (text : List Char) :
    Option (Except Fault TextTerm) :=
  let before := text.takeWhile (!isTextMark ·)
  match text.dropWhile (!isTextMark ·) with
  | [] => none
  | '"' :: inside => some (literal (offset + width before) inside)
  | _ =>
    (Callee.next? text).map fun callee =>
      ofCallee context compilers (offset + width callee.lead) callee

/-- What is wrong with the text between a part and the next one: it holds exactly one `+`. -/
def joinFault? (offset : Nat) (text : List Char) : Option Fault :=
  let gap := text.takeWhile (!isTextMark ·)
  if (text.dropWhile (!isTextMark ·)).isEmpty then none
  else
    match gap.dropWhile (· != '+') with
    | [] => some (.missingConcatenationOperator (offset + width gap))
    | _ :: more =>
      if more.contains '+' then
        some (.missingTermBetweenOperators (offset + width (gap.takeWhile (· != '+'))))
      else none

theorem literal_length {offset : Nat} {text : List Char} {term : TextTerm}
    (h : literal offset text = .ok term) : term.rest.length < text.length := by
  unfold literal at h
  split at h
  · simp at h
  · rename_i body rest hs
    obtain rfl := Except.ok.inj h
    exact Source.splitQuoted_length hs

theorem ofCallee_length {context : Context} {compilers : Compilers} {nameStart : Nat}
    {callee : Callee} {term : TextTerm}
    (h : ofCallee context compilers nameStart callee = .ok term) :
    term.rest.length < callee.tail.length := by
  unfold ofCallee at h
  split at h
  · simp at h
  · rename_i list ho
    split at h
    · simp at h
    · rename_i rest hr
      split at h
      · simp at h
      · obtain rfl := Except.ok.inj h
        exact ArgumentList.open?_length ho hr

/-- What is left to read is shorter. -/
theorem read?_length {context : Context} {compilers : Compilers} {offset : Nat} {text : List Char}
    {term : TextTerm} (h : read? context compilers offset text = some (.ok term)) :
    term.rest.length < text.length := by
  have ht := congrArg List.length
    (List.takeWhile_append_dropWhile (p := (!isTextMark ·)) (l := text))
  rw [List.length_append] at ht
  simp only [read?] at h
  split at h
  · simp at h
  · rename_i inside hd
    have := literal_length (Option.some.inj h)
    rw [hd, List.length_cons] at ht
    omega
  · obtain ⟨callee, hc, ho⟩ := Option.map_eq_some_iff.mp h
    have hl := congrArg List.length (Callee.next?_append hc)
    have := ofCallee_length ho
    simp only [List.length_append] at hl
    omega

/-- The parts of a text that goes on at `offset`. What follows the last one is not looked at. -/
def readAll (context : Context) (compilers : Compilers) (offset : Nat) (text : List Char) :
    Except Fault (List TextStep) :=
  match _h : read? context compilers offset text with
  | none => .ok []
  | some (.error fault) => .error fault
  | some (.ok term) =>
    match joinFault? term.next term.rest with
    | some fault => .error fault
    | none =>
      match readAll context compilers term.next term.rest with
      | .error fault => .error fault
      | .ok others => .ok (term.step :: others)
termination_by text.length
decreasing_by exact read?_length (by assumption)

theorem readAll_eq (context : Context) (compilers : Compilers) (offset : Nat) (text : List Char) :
    readAll context compilers offset text =
      match read? context compilers offset text with
      | none => .ok []
      | some (.error fault) => .error fault
      | some (.ok term) =>
        match joinFault? term.next term.rest with
        | some fault => .error fault
        | none =>
          match readAll context compilers term.next term.rest with
          | .error fault => .error fault
          | .ok others => .ok (term.step :: others) := by
  rw [readAll]
  split <;> rename_i h <;> rw [h]

end TextTerm

def TextForm.compileWith (context : Context) (compilers : Compilers) (raw : String) :
    Except Fault TextForm :=
  match TextTerm.readAll context compilers 0 raw.toList with
  | .error fault => .error fault
  | .ok [] => .error (.emptyOrInvalidExpression 0)
  | .ok steps => .ok ⟨steps⟩

end SceneFormula
