import SceneFormula.Call.Callee
import SceneFormula.Formula.Parameter
import SceneFormula.Source.Basic
import SceneFormula.Source.ArgumentList

/-! Numeric expressions. Every call of a known function is replaced by a variable, and what is left
is read as arithmetic. Names that mean no function stay, and arithmetic judges them. -/
namespace SceneFormula
open Arithmetic (Program isReserved)
open Source (Argument ArgumentList isBroken separators width)

def variableName (index : Nat) : String :=
  s!"x{index}"

def variableNames (count : Nat) : List String :=
  (List.range count).map fun k => variableName (k + 1)

namespace NumericCall

def addAll (context : Context) (compilers : Compilers) (declarations : List Declaration) :
    List Expression → List Argument → Except Fault (List Expression)
  | parameters, [] => .ok parameters
  | parameters, written :: rest =>
    match addParameter context compilers declarations parameters (String.ofList written.text)
        written.start with
    | (some fault, _) => .error fault
    | (none, parameters) => addAll context compilers declarations parameters rest

/-- A call with the parameters of a list. Each parameter is prepared before the end of the list and
the number of parameters are looked at. -/
def ofList (context : Context) (compilers : Compilers) (target : Target) (nameEnd : Nat)
    (list : ArgumentList) : Except Fault (NumericCall × List Char) :=
  let receivers := target.receivers.map (Expression.ofRaw context.world)
  match addAll context compilers target.declarations receivers list.given with
  | .error fault => .error fault
  | .ok parameters =>
    match list.rest with
    | none => .error (.unterminatedParentheses (list.stop - 1))
    | some rest =>
      let atLeast := mandatoryCount target.declarations
      let atMost := target.declarations.length
      if atLeast ≤ parameters.length ∧ parameters.length ≤ atMost then
        .ok (⟨target.routine, parameters⟩, rest)
      else .error (.wrongParameterCount nameEnd atLeast atMost parameters.length)

theorem rest_of_ofList {context : Context} {compilers : Compilers} {target : Target}
    {nameEnd : Nat} {list : ArgumentList} {call : NumericCall} {rest : List Char}
    (h : ofList context compilers target nameEnd list = .ok (call, rest)) :
    list.rest = some rest := by
  simp only [ofList] at h
  split at h
  · simp at h
  · split at h
    · simp at h
    · rename_i behind hr
      split at h <;> simp_all

end NumericCall

/-- A stretch of a numeric text: what is copied from it, the call that follows, and the offset and
the text at which it goes on. -/
structure Stretch where
  copied : List Char
  call : Option NumericCall
  next : Nat
  rest : List Char

namespace Stretch

/-- The function that a numeric text calls by name. A name behind a dot that runs to the end of the
text names nothing. -/
def functionName (callee : Callee) : List Char :=
  if callee.tail = [] then [] else callee.function

def target? (world : World) (callee : Callee) : Option Target :=
  let name := String.ofList (functionName callee)
  if isReserved name then none else world.resolve .number callee.receiver? name

def throughDot (offset : Nat) (callee : Callee) : Stretch :=
  let copied := callee.lead ++ callee.name ++ ['.']
  ⟨copied, none, offset + width copied, callee.member.getD [] ++ callee.tail⟩

/-- Copies up to the character behind the name of the function, as it means no function. -/
def throughName (offset : Nat) (callee : Callee) : Stretch :=
  let copied := callee.lead ++ callee.written ++ callee.tail.take 1
  ⟨copied, none, offset + width copied, callee.tail.drop 1⟩

def nameEnd (offset : Nat) (callee : Callee) : Nat :=
  let stop := offset + width (callee.lead ++ callee.written)
  if callee.tail = [] then stop - 1 else stop

def ofTarget (context : Context) (compilers : Compilers) (offset : Nat) (callee : Callee)
    (target : Target) : Except Fault Stretch :=
  match ArgumentList.open? (nameEnd offset callee) callee.tail with
  | none => .error (.missingParameterParentheses (nameEnd offset callee))
  | some list =>
    match NumericCall.ofList context compilers target (nameEnd offset callee) list with
    | .error fault => .error fault
    | .ok (call, rest) => .ok ⟨callee.lead, some call, list.stop + 1, rest⟩

def read (context : Context) (compilers : Compilers) (offset : Nat) (text : List Char) :
    Except Fault Stretch :=
  match Callee.next? text with
  | none => .ok ⟨text, none, offset + width text, []⟩
  | some callee =>
    if isBroken separators (functionName callee) then .ok (throughDot offset callee)
    else
      match target? context.world callee with
      | none => .ok (throughName offset callee)
      | some target => ofTarget context compilers offset callee target

private theorem throughDot_length (offset : Nat) {callee : Callee}
    (h : isBroken separators (functionName callee) = true) :
    (throughDot offset callee).rest.length < callee.written.length + callee.tail.length := by
  cases hm : callee.member with
  | some member => simp [throughDot, Callee.written, hm]; omega
  | none =>
    have hn : callee.name ≠ [] := by
      rintro hn
      simp [functionName, Callee.function, hm, hn, isBroken] at h
    simpa [throughDot, Callee.written, hm] using List.length_pos_iff.mpr hn

private theorem ofTarget_length {context : Context} {compilers : Compilers} {offset : Nat}
    {callee : Callee} {target : Target} {stretch : Stretch}
    (h : ofTarget context compilers offset callee target = .ok stretch) :
    stretch.rest.length < callee.tail.length := by
  unfold ofTarget at h
  split at h
  · simp at h
  · rename_i list ho
    split at h
    · simp at h
    · rename_i call rest hb
      obtain rfl := Except.ok.inj h
      exact ArgumentList.open?_length ho (NumericCall.rest_of_ofList hb)

/-- What is left to read is shorter. -/
theorem read_length {context : Context} {compilers : Compilers} {offset : Nat} {text : List Char}
    {stretch : Stretch} (h : read context compilers offset text = .ok stretch) (ht : text ≠ []) :
    stretch.rest.length < text.length := by
  have hpos := List.length_pos_iff.mpr ht
  unfold read at h
  split at h
  · obtain rfl := Except.ok.inj h
    exact hpos
  · rename_i callee hc
    have hl := congrArg List.length (Callee.next?_append hc)
    simp only [List.length_append] at hl
    split at h
    · rename_i hs
      obtain rfl := Except.ok.inj h
      have := throughDot_length offset hs
      omega
    · split at h
      · obtain rfl := Except.ok.inj h
        simp only [throughName, List.length_drop]
        omega
      · have := ofTarget_length h
        omega

def readAll (context : Context) (compilers : Compilers) (offset : Nat) (text : List Char) :
    Except Fault (List Stretch) :=
  if _ht : text = [] then .ok []
  else
    match _h : read context compilers offset text with
    | .error fault => .error fault
    | .ok stretch =>
      match readAll context compilers stretch.next stretch.rest with
      | .error fault => .error fault
      | .ok others => .ok (stretch :: others)
termination_by text.length
decreasing_by exact read_length (by assumption) (by assumption)

/-- A text that is not empty is read as a first stretch and the others. -/
theorem readAll_eq {context : Context} {compilers : Compilers} {offset : Nat} {text : List Char}
    (ht : text ≠ []) :
    readAll context compilers offset text =
      match read context compilers offset text with
      | .error fault => .error fault
      | .ok stretch =>
        match readAll context compilers stretch.next stretch.rest with
        | .error fault => .error fault
        | .ok others => .ok (stretch :: others) := by
  rw [readAll, dif_neg ht]
  split <;> rename_i h <;> rw [h]

def arithmetic : Nat → List Stretch → List Char
  | _, [] => []
  | count, ⟨copied, none, _, _⟩ :: rest => copied ++ arithmetic count rest
  | count, ⟨copied, some _, _, _⟩ :: rest =>
    copied ++ (variableName (count + 1)).toList ++ arithmetic (count + 1) rest

end Stretch

def NumericForm.compileWith (context : Context) (compilers : Compilers) (raw : String) :
    Except Fault NumericForm :=
  match Stretch.readAll context compilers 0 raw.toList with
  | .error fault => .error fault
  | .ok stretches =>
    let calls := stretches.filterMap (·.call)
    let arithmetic := String.ofList (Stretch.arithmetic 0 stretches)
    match Program.parse arithmetic (variableNames calls.length) context.options.maxDepth.toNat with
    | .error fault => .error fault
    | .ok program => .ok ⟨calls, program.optimize⟩

end SceneFormula
