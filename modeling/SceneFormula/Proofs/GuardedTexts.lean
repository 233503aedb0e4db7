import SceneFormula.Proofs.GuardedNumbers
import SceneFormula.Proofs.TextCuts

/-! Text expressions, compiled by offsets. Every part leads on in the text, a place is found
wherever a mark is found, and no operation fails on the way. A call that is made a number is the
only nested text that may have as many bytes as the text itself. -/
namespace SceneFormula
open Source (Argument ArgumentList closingQuote? comesBefore indexOf? listAt? listOpening?
  separators slice? soonest? splitQuoted unescape width)

namespace Source

theorem soonest?_eq_some {places : List (Option Nat)} {place : Nat} (hm : some place ∈ places)
    (hl : ∀ found, some found ∈ places → place ≤ found) : soonest? places = some place := by
  refine List.min?_eq_some_iff.mpr ⟨List.mem_filterMap.mpr ⟨some place, hm, rfl⟩, ?_⟩
  intro found hf
  obtain ⟨other, ho, rfl⟩ := List.mem_filterMap.mp hf
  exact hl found ho

def nextMark? (text : List Char) (position : Nat) : Option Nat :=
  soonest? [indexOf? text '.' position, indexOf? text '(' position, indexOf? text '"' position]

def nextQuote? (text : List Char) (position : Nat) : Option Nat :=
  let quote := indexOf? text '"' position
  quote.filter fun _ =>
    comesBefore quote (indexOf? text '.' position) && comesBefore quote (indexOf? text '(' position)

end Source

namespace TextTerm

def callGuarded (context : Context) (compilers : GuardedCompilers) (target : Target)
    (nameStart nameEnd : Nat) (arguments : List Argument) : Guarded Fault TextStep :=
  let expression := Expression.ofRaw context.world
  let parameters := target.receivers.map (fun name => (expression name, nameStart)) ++
    arguments.map fun written => (expression (String.ofList written.text), written.start)
  let atLeast := mandatoryCount target.declarations
  let atMost := target.declarations.length
  if parameters.length < atMost ∨ parameters.length < atLeast then
    throw (.wrongParameterCount nameEnd atLeast atMost parameters.length)
  else do
    let parameters ← bindAllGuarded compilers target.declarations parameters
    pure (.call target.routine parameters)

def numberGuarded (context : Context) (compilers : GuardedCompilers) (name : String)
    (nameStart : Nat) (written : List Char) : Guarded Fault TextStep :=
  let expression := Expression.ofRaw context.world (String.ofList written)
  TextStep.number <$>
    ExceptT.adapt (fun _ => Fault.unrecognizedFunction name nameStart)
      (expression.prepareNumberGuarded compilers)

def ofListGuarded (context : Context) (compilers : GuardedCompilers) (text : List Char)
    (place : CallPlace) (arguments : List Argument) (close : Nat) : Guarded Fault TextStep :=
  match context.world.resolve .text place.receiver? place.function with
  | some target =>
    callGuarded context (compilers.below (width text)) target place.start
      (place.functionEnd.getD place.mark) arguments
  | none => do
    let written ← slice? text place.start (close + 1)
    numberGuarded context (compilers.below (width text + 1)) place.function place.start written

def ofPlace (context : Context) (compilers : GuardedCompilers) (text : List Char)
    (place : CallPlace) : Guarded Fault (TextStep × Nat) :=
  match place.functionEnd.bind (listOpening? text) with
  | none => throw (.missingParameterParentheses (place.functionEnd.getD place.mark))
  | some opening => do
    let list ← listAt? text (opening + 1)
    match list.close with
    | none => throw (.unterminatedParentheses (list.stop - 1))
    | some close =>
      let step ← ofListGuarded context compilers text place list.arguments close
      pure (step, close + 1)

def ofQuote (text : List Char) (opening : Nat) : Guarded Fault (TextStep × Nat) :=
  match closingQuote? text (opening + 1) with
  | none => throw (.unterminatedQuotes opening)
  | some close => do
    let body ← slice? text (opening + 1) close
    pure (.literal (String.ofList (unescape body)), close + 1)

/-- The part that starts at the next mark, if there is one. It is a failure if a mark belongs to no
place. -/
def readAt (context : Context) (compilers : GuardedCompilers) (text : List Char) (position : Nat) :
    Guarded Fault (Option (TextStep × Nat)) :=
  if (Source.nextMark? text position).isNone then pure none
  else
    match Source.nextQuote? text position with
    | some opening => some <$> ofQuote text opening
    | none => do
      match ← CallPlace.ofMarks? text separators position (indexOf? text '.' position)
          (indexOf? text '(' position) with
      | none => liftM (none : Option (Option (TextStep × Nat)))
      | some place => some <$> ofPlace context compilers text place

def joinFaultAt? (text : List Char) (position : Nat) : Option Fault :=
  (Source.nextMark? text position).bind fun mark =>
    match (indexOf? text '+' position).filter (· < mark) with
    | none => some (.missingConcatenationOperator mark)
    | some plus =>
      if comesBefore (indexOf? text '+' (plus + 1)) (some mark) then
        some (.missingTermBetweenOperators plus)
      else none

end TextTerm

namespace TextForm

/-- The parts of a text from an offset on, behind those that were read. Every part must lead on and
end in the text. -/
def scan (context : Context) (compilers : GuardedCompilers) (text : List Char) (position : Nat)
    (steps : List TextStep) : Guarded Fault (List TextStep) := do
  match ← TextTerm.readAt context compilers text position with
  | none => pure steps
  | some (step, next) =>
    if _h : position < next ∧ next ≤ width text then
      match TextTerm.joinFaultAt? text next with
      | some fault => throw fault
      | none => scan context compilers text next (steps ++ [step])
    else liftM (none : Option (List TextStep))
termination_by width text - position

def compileGuarded (context : Context) (compilers : GuardedCompilers) (raw : String) :
    Guarded Fault TextForm :=
  let text := raw.toList
  if (Source.nextMark? text 0).isNone then throw (.emptyOrInvalidExpression 0)
  else do
    let steps ← scan context compilers text 0 []
    pure ⟨steps⟩

end TextForm

section Marks
open Source
variable (front : List Char) {gap : List Char}

/-- What holds none of the marks. -/
private theorem not_mem_of_unmarked {c : Char} (hg : ∀ d ∈ gap, isTextMark d = false)
    (hc : isTextMark c = true) : c ∉ gap :=
  fun hmem => Bool.false_ne_true ((hg c hmem).symm.trans hc)

private theorem nextMark?_eq_none (hg : ∀ c ∈ gap, isTextMark c = false) :
    nextMark? (front ++ gap) (width front) = none := by
  rw [nextMark?, indexOf?_eq_none front (by decide) (not_mem_of_unmarked hg rfl),
    indexOf?_eq_none front (by decide) (not_mem_of_unmarked hg rfl),
    indexOf?_eq_none front (by decide) (not_mem_of_unmarked hg rfl)]
  rfl

private theorem nextMark?_append (hg : ∀ c ∈ gap, isTextMark c = false) {mark : Char}
    (hm : isTextMark mark = true) (more : List Char) :
    nextMark? (front ++ (gap ++ mark :: more)) (width front) = some (width (front ++ gap)) := by
  have hfar {c : Char} (hc : c.toNat < 128) (hmark : isTextMark c = true) {found : Nat}
      (h : some found = indexOf? (front ++ (gap ++ mark :: more)) c (width front)) :
      width (front ++ gap) ≤ found :=
    le_of_indexOf? front hc (not_mem_of_unmarked hg hmark) h.symm
  refine soonest?_eq_some ?_ fun found hf => ?_
  · have hmem : mark = '.' ∨ mark = '(' ∨ mark = '"' := by
      simpa [isTextMark, Callee.isMark, or_assoc] using hm
    have hc : mark.toNat < 128 := by rcases hmem with rfl | rfl | rfl <;> decide
    have hfound := indexOf?_append front hc (not_mem_of_unmarked hg hm) more
    rw [← hfound]
    rcases hmem with rfl | rfl | rfl <;> simp
  · simp only [List.mem_cons, List.not_mem_nil, or_false] at hf
    rcases hf with hf | hf | hf
    · exact hfar (by decide) rfl hf
    · exact hfar (by decide) rfl hf
    · exact hfar (by decide) rfl hf

theorem nextMark?_eq_none_iff (rest : List Char) :
    nextMark? (front ++ rest) (width front) = none ↔ ∀ c ∈ rest, isTextMark c = false := by
  refine ⟨fun h => ?_, nextMark?_eq_none front⟩
  obtain ⟨gap, behind, rfl, -, -, hgap, hmark⟩ := exists_cut isTextMark rest
  cases behind with
  | nil => rwa [List.append_nil]
  | cons mark more =>
    rw [nextMark?_append front hgap (hmark mark rfl)] at h
    cases h

private theorem nextQuote?_append (hg : ∀ c ∈ gap, isTextMark c = false) (more : List Char) :
    nextQuote? (front ++ (gap ++ '"' :: more)) (width front) = some (width (front ++ gap)) := by
  have hquote : '"' ∉ gap := not_mem_of_unmarked hg rfl
  have hdot := (comesBefore_indexOf? front (by decide : '"'.toNat < 128)
    (by decide : '.'.toNat < 128) (by decide) hquote (not_mem_of_unmarked hg rfl) more).1
  have hparen := (comesBefore_indexOf? front (by decide : '"'.toNat < 128)
    (by decide : '('.toNat < 128) (by decide) hquote (not_mem_of_unmarked hg rfl) more).1
  simp only [nextQuote?, hdot, hparen, Bool.and_self]
  rw [indexOf?_append front (by decide) hquote]
  rfl

/-- Another mark stands before the first quote. -/
private theorem nextQuote?_of_mark (hg : ∀ c ∈ gap, isTextMark c = false) {mark : Char}
    (hm : Callee.isMark mark = true) (more : List Char) :
    nextQuote? (front ++ (gap ++ mark :: more)) (width front) = none := by
  have hquote : '"' ∉ gap := not_mem_of_unmarked hg rfl
  rw [nextQuote?, Option.filter_eq_none_iff]
  intro found _
  rw [Bool.and_eq_true, not_and_or, Bool.not_eq_true, Bool.not_eq_true]
  rcases Bool.or_eq_true_iff.mp hm with hm | hm
  · obtain rfl := eq_of_beq hm
    exact .inl (comesBefore_indexOf? front (by decide) (by decide) (by decide)
      (not_mem_of_unmarked hg rfl) hquote more).2
  · obtain rfl := eq_of_beq hm
    exact .inr (comesBefore_indexOf? front (by decide) (by decide) (by decide)
      (not_mem_of_unmarked hg rfl) hquote more).2

/-- A `+` stands before the end of a part of the text if that part holds one. -/
private theorem comesBefore_plus (gap more : List Char) :
    comesBefore (indexOf? (front ++ (gap ++ more)) '+' (width front))
      (some (width (front ++ gap))) = gap.contains '+' := by
  by_cases hp : '+' ∈ gap
  · obtain ⟨lead, others, rfl, hnot⟩ := List.eq_append_cons_of_mem hp
    have hpos := '+'.utf8Size_pos
    rw [List.append_assoc, List.cons_append, indexOf?_append front (by decide) hnot,
      List.contains_iff_mem.mpr hp]
    refine decide_eq_true ?_
    simp only [width_append, width_cons]
    omega
  · have hcontains : gap.contains '+' = false := by simpa using hp
    rw [hcontains]
    cases hf : indexOf? (front ++ (gap ++ more)) '+' (width front) with
    | none => rfl
    | some found => exact decide_eq_false (Nat.not_lt.mpr (le_of_indexOf? front (by decide) hp hf))

/-- What stands between two parts is judged the same by offsets. -/
theorem TextTerm.joinFaultAt?_eq (rest : List Char) :
    joinFaultAt? (front ++ rest) (width front) = joinFault? (width front) rest := by
  obtain ⟨gap, behind, rfl, htake, hdrop, hgap, hmark⟩ := exists_cut isTextMark rest
  rw [joinFaultAt?, joinFault?, htake, hdrop]
  cases behind with
  | nil =>
    rw [List.append_nil, nextMark?_eq_none front hgap]
    rfl
  | cons mark more =>
    rw [nextMark?_append front hgap (hmark mark rfl)]
    obtain ⟨lead, tail, rfl, hlead, htail, hplain, hplus⟩ := exists_cut (· == '+') gap
    have hnot : '+' ∉ lead := fun hc => Bool.false_ne_true (hplain '+' hc).symm
    have htake : (lead ++ tail).takeWhile (· != '+') = lead := hlead
    have hdrop : (lead ++ tail).dropWhile (· != '+') = tail := htail
    simp only [List.isEmpty_cons, Bool.false_eq_true, if_false, Option.bind_some, htake, hdrop]
    cases tail with
    | nil =>
      have hnone : (indexOf? (front ++ (lead ++ [] ++ mark :: more)) '+' (width front)).filter
          (· < width (front ++ (lead ++ []))) = none := by
        rw [Option.filter_eq_none_iff, List.append_nil]
        intro found hf
        rw [decide_eq_true_eq, Nat.not_lt]
        exact le_of_indexOf? front (by decide) hnot hf
      rw [hnone, width_append front]
    | cons plus others =>
      obtain rfl : plus = '+' := eq_of_beq (hplus plus rfl)
      have hfirst : (indexOf? (front ++ (lead ++ '+' :: others ++ mark :: more)) '+'
          (width front)).filter (· < width (front ++ (lead ++ '+' :: others))) =
          some (width (front ++ lead)) := by
        have hpos := '+'.utf8Size_pos
        rw [List.append_assoc lead, List.cons_append, indexOf?_append front (by decide) hnot,
          Option.filter_some, if_pos]
        simp only [width_append, width_cons, decide_eq_true_eq]
        omega
      have hbehind : width (front ++ lead) + 1 = width (front ++ (lead ++ ['+'])) := by
        have hsize : '+'.utf8Size = 1 := rfl
        simp [hsize, Nat.add_assoc]
      have hsecond := comesBefore_plus (front ++ (lead ++ ['+'])) others (mark :: more)
      have htext : front ++ (lead ++ '+' :: others ++ mark :: more) =
          front ++ (lead ++ ['+']) ++ (others ++ mark :: more) := by simp
      have hmark : front ++ (lead ++ '+' :: others) = front ++ (lead ++ ['+']) ++ others := by simp
      rw [hfirst]
      dsimp only
      rw [htext, hbehind, hmark, hsecond, width_append front lead]

end Marks

section Agreement
variable {context : Context} {guarded : GuardedCompilers} {compilers : Compilers}

namespace TextTerm
variable (front : List Char) {rest : List Char} {callee : Callee}

def told (term : TextTerm) : TextStep × Nat :=
  (term.step, term.next)

theorem ofQuote_eq (front inside : List Char) :
    ofQuote (front ++ '"' :: inside) (width front) =
      .of ((literal (width front) inside).map told) := by
  have hsize : '"'.utf8Size = 1 := rfl
  have hopening : width front + 1 = width (front ++ ['"']) := by simp [hsize]
  have htext : front ++ '"' :: inside = front ++ ['"'] ++ inside := by simp
  rw [ofQuote, literal, htext, hopening, Source.closingQuote?_append]
  cases hq : splitQuoted '"' inside with
  | none => rfl
  | some found =>
    obtain ⟨body, behind⟩ := found
    have hbody : slice? (front ++ ['"'] ++ inside) (width (front ++ ['"']))
        (width (front ++ ['"'] ++ body)) = some body := by
      refine @Source.slice?_eq _ (front ++ ['"']) body ('"' :: behind) _ _ ?_ rfl rfl
      rw [Source.splitQuoted_eq hq, List.append_assoc _ body]
    simp only [Option.map_some, hbody, Guarded.liftM_some_bind, Except.map, told]
    rw [← Source.width_append]
    rfl

variable (context) in
theorem callGuarded_eq {bound : Nat} (hg : guarded.Safe bound compilers) (target : Target)
    (nameStart nameEnd : Nat) {list : ArgumentList}
    (hr : ∀ receiver ∈ target.receivers, width receiver.toList < bound)
    (hw : ∀ argument ∈ list.arguments, width argument.text < bound) :
    callGuarded context guarded target nameStart nameEnd list.arguments =
      .of (call context compilers target nameStart nameEnd list) := by
  have hall : ∀ parameter ∈ target.receivers.map (fun name =>
        (Expression.ofRaw context.world name, nameStart)) ++
      list.arguments.map (fun written =>
        (Expression.ofRaw context.world (String.ofList written.text), written.start)),
      width parameter.1.raw.toList < bound := by
    intro parameter hp
    rcases List.mem_append.mp hp with hp | hp
    · obtain ⟨receiver, hmem, rfl⟩ := List.mem_map.mp hp
      exact hr receiver hmem
    · obtain ⟨argument, hmem, rfl⟩ := List.mem_map.mp hp
      rw [Expression.ofRaw, String.toList_ofList]
      exact hw argument hmem
  unfold callGuarded call
  simp only [bindAllGuarded_eq hg context.options target.declarations hall]
  split
  · rfl
  · cases bindAll compilers context.options target.declarations _ <;> rfl

variable (context) in
theorem numberGuarded_eq {bound : Nat} (hg : guarded.Safe bound compilers) (name : String)
    (nameStart : Nat) {written : List Char} (hw : width written < bound) :
    numberGuarded context guarded name nameStart written =
      .of (number context compilers name nameStart written) := by
  have hraw :
      width (Expression.ofRaw context.world (String.ofList written)).raw.toList < bound := by
    rw [Expression.ofRaw, String.toList_ofList]
    exact hw
  unfold numberGuarded number
  simp only [Expression.prepareNumberGuarded_eq hg context.options hraw, Guarded.adapt_of]
  rcases Expression.prepareNumberWith compilers context.options _ with ⟨_ | fault, prepared⟩ <;> rfl

/-- The text of a call from its name through its closing parenthesis. -/
private theorem slice_call (hs : callee.Splits rest) {list : ArgumentList} {behind : List Char}
    (ho : ArgumentList.open? (width (front ++ (callee.lead ++ callee.written))) callee.tail =
      some list) (hr : list.rest = some behind) :
    slice? (front ++ rest) (width front + width callee.lead) (list.stop + 1) =
      some (callee.written ++ callee.tail.take (callee.tail.length - behind.length)) := by
  obtain ⟨used, htail, hstop⟩ := ArgumentList.stop_of_closed ho hr
  have htake : callee.tail.take (callee.tail.length - behind.length) = used ++ [')'] := by
    rw [htail, show used ++ ')' :: behind = used ++ [')'] ++ behind by simp, List.length_append,
      Nat.add_sub_cancel, List.take_left]
  have hclosing : ')'.utf8Size = 1 := rfl
  refine @Source.slice?_eq _ (front ++ callee.lead) _ behind _ _ ?_ ?_ ?_
  · rw [htake, ← hs.text, htail]
    simp
  · rw [Source.width_append]
  · rw [htake, hstop]
    simp [hclosing, Nat.add_assoc]

private theorem functionEnd_eq (front : List Char) (ht : callee.tail ≠ []) :
    (CallPlace.ofCallee (width front) callee).functionEnd =
      some (width (front ++ (callee.lead ++ callee.written))) := by
  rw [CallPlace.ofCallee, if_neg ht, Source.width_append front]

theorem ofListGuarded_eq (hg : guarded.Safe (width (front ++ rest) + 1) compilers)
    (hs : callee.Splits rest) {list : ArgumentList} {behind : List Char}
    (ho : ArgumentList.open? (width (front ++ (callee.lead ++ callee.written))) callee.tail =
      some list) (hr : list.rest = some behind) :
    ofListGuarded context guarded (front ++ rest) (CallPlace.ofCallee (width front) callee)
        list.arguments list.stop =
      .of (ofList context compilers (width front + width callee.lead) callee list behind) := by
  have ht : callee.tail ≠ [] := ne_nil_of_open? ho
  have htext : front ++ rest = front ++ (callee.lead ++ callee.written) ++ callee.tail := by
    rw [← hs.text, List.append_assoc front]
  have hname := @nameEnd_eq front callee ht
  rw [Source.width_append] at hname
  rw [ofListGuarded, ofList, CallPlace.receiver?_ofCallee, functionEnd_eq front ht, hname,
    Option.getD_some]
  cases hm : context.world.resolve .text callee.receiver? (String.ofList callee.function) with
  | some target =>
    have hreceivers (receiver : String) (hmem : receiver ∈ target.receivers) :
        width receiver.toList < width (front ++ rest) := by
      have := hs.width_receiver hm hmem
      rw [Source.width_append]
      omega
    have harguments (argument : Argument) (ha : argument ∈ list.arguments) :
        width argument.text < width (front ++ rest) := by
      refine Source.ArgumentsBelow.of_open? ?_ ho ha
      rw [htext]
      exact (Source.argumentsBelow_width _).of_append
    have hcall := callGuarded_eq context (hg.mono (Nat.le_succ _)).below target
      (width front + width callee.lead) (width (front ++ (callee.lead ++ callee.written)))
      hreceivers harguments
    simp only [CallPlace.ofCallee, hm, hcall]
  | none =>
    have hslice := slice_call front hs ho hr
    have hnumber := numberGuarded_eq context hg.below (String.ofList callee.function)
      (width front + width callee.lead) (Nat.lt_succ_of_le (Source.width_le_of_slice? hslice))
    simp only [CallPlace.ofCallee, hm, hslice, Guarded.liftM_some_bind, hnumber]

theorem ofPlace_eq (hg : guarded.Safe (width (front ++ rest) + 1) compilers)
    (hs : callee.Splits rest) :
    ofPlace context guarded (front ++ rest) (CallPlace.ofCallee (width front) callee) =
      .of ((ofCallee context compilers (width front + width callee.lead) callee).map told) := by
  have htext : front ++ rest = front ++ (callee.lead ++ callee.written) ++ callee.tail := by
    rw [← hs.text, List.append_assoc front]
  rw [ofPlace, ofCallee]
  by_cases ht : callee.tail = []
  · have hend : (CallPlace.ofCallee (width front) callee).functionEnd = none := if_pos ht
    have hname : nameEnd (width front + width callee.lead) callee =
        (CallPlace.ofCallee (width front) callee).mark := by
      rw [nameEnd, if_pos ht, CallPlace.ofCallee, Source.width_append, Nat.add_assoc]
    rw [hend, hname, ht]
    rfl
  · have hname := @nameEnd_eq front callee ht
    rw [Source.width_append] at hname
    rw [functionEnd_eq front ht, hname, Option.bind_some, Option.getD_some]
    cases ho : ArgumentList.open? (width (front ++ (callee.lead ++ callee.written)))
      callee.tail with
    | none =>
      rw [htext, Source.listOpening?_eq_none _ ho]
      rfl
    | some list =>
      obtain ⟨opening, hopening, hlist⟩ := Source.listAt?_eq ho
      rw [← htext] at hopening hlist
      rw [hopening]
      simp only [hlist, Guarded.liftM_some_bind, ArgumentList.close]
      cases hr : list.rest with
      | none => rfl
      | some behind =>
        simp only [Option.map_some, ofListGuarded_eq front hg hs ho hr]
        cases ofList context compilers (width front + width callee.lead) callee list behind <;> rfl

/-- At a mark that is no quote a call is read. -/
private theorem read?_of_mark {gap : List Char} (offset : Nat) {mark : Char} {more : List Char}
    (hrest : rest = gap ++ mark :: more) (hgap : ∀ c ∈ gap, isTextMark c = false)
    (hm : Callee.isMark mark = true) :
    ∃ callee, Callee.next? rest = some callee ∧
      read? context compilers offset rest =
        some (ofCallee context compilers (offset + width callee.lead) callee) := by
  obtain ⟨callee, hn⟩ : ∃ callee, Callee.next? rest = some callee := by
    refine Option.ne_none_iff_exists'.mp fun hnone => ?_
    have := Callee.next?_eq_none_iff.mp hnone mark (by rw [hrest]; simp)
    rw [hm] at this
    cases this
  have hall : ∀ c ∈ gap, (!isTextMark c) = true := fun c hc => by rw [hgap c hc]; rfl
  have hmark : isTextMark mark = true := by rw [isTextMark, hm]; rfl
  have hdrop : rest.dropWhile (!isTextMark ·) = mark :: more := by
    rw [hrest, List.dropWhile_append_of_pos hall, List.dropWhile_cons_of_neg (by simp [hmark])]
  refine ⟨callee, hn, ?_⟩
  rw [read?, hdrop, hn]
  rcases Bool.or_eq_true_iff.mp hm with hm | hm
  · obtain rfl := eq_of_beq hm
    rfl
  · obtain rfl := eq_of_beq hm
    rfl

theorem readAt_eq (hg : guarded.Safe (width (front ++ rest) + 1) compilers) :
    readAt context guarded (front ++ rest) (width front) =
      .of (match read? context compilers (width front) rest with
        | none => .ok none
        | some found => found.map (some ∘ told)) := by
  obtain ⟨gap, behind, hrest, htake, hdrop, hgap, hmark⟩ := exists_cut isTextMark rest
  rw [readAt]
  cases behind with
  | nil =>
    have hread : read? context compilers (width front) rest = none := by
      simp only [read?, hdrop]
    rw [hread, hrest, List.append_nil, nextMark?_eq_none front hgap]
    rfl
  | cons mark more =>
    have hfirst : Source.nextMark? (front ++ rest) (width front) = some (width (front ++ gap)) := by
      rw [hrest]
      exact nextMark?_append front hgap (hmark mark rfl) more
    rw [hfirst, Option.isNone_some, if_neg Bool.false_ne_true]
    by_cases hq : mark = '"'
    · subst hq
      have hread : read? context compilers (width front) rest =
          some (literal (width (front ++ gap)) more) := by
        simp only [read?, htake, hdrop, Source.width_append]
      have hquote :
          Source.nextQuote? (front ++ rest) (width front) = some (width (front ++ gap)) := by
        rw [hrest]
        exact nextQuote?_append front hgap more
      rw [hquote, hread, hrest, ← List.append_assoc]
      simp only [ofQuote_eq]
      cases literal (width (front ++ gap)) more <;> rfl
    · have hcall : Callee.isMark mark = true := by
        have htext := hmark mark rfl
        simpa [isTextMark, hq] using htext
      have hquote : Source.nextQuote? (front ++ rest) (width front) = none := by
        rw [hrest]
        exact nextQuote?_of_mark front hgap hcall more
      obtain ⟨callee, hn, hread⟩ := read?_of_mark (width front) hrest hgap hcall
      rw [hquote, CallPlace.ofMarks?_eq, hread, hn]
      simp only [Option.map_some, Guarded.liftM_some_bind,
        ofPlace_eq front hg (Callee.next?_eq_some_iff.mp hn)]
      cases ofCallee context compilers (width front + width callee.lead) callee <;> rfl

/-- A text in which no part is read holds no mark. -/
theorem unmarked_of_readAll {offset : Nat} {text : List Char}
    (h : readAll context compilers offset text = .ok []) : ∀ c ∈ text, isTextMark c = false := by
  rw [readAll_eq] at h
  cases hr : read? context compilers offset text with
  | none => exact read?_eq_none_iff.mp hr
  | some found =>
    rw [hr] at h
    cases found with
    | error fault => cases h
    | ok term =>
      dsimp only at h
      split at h
      · cases h
      · split at h <;> cases h

end TextTerm

namespace TextForm

theorem scan_eq {text front rest : List Char} (hg : guarded.Safe (width text + 1) compilers)
    (ht : text = front ++ rest) (steps : List TextStep) :
    scan context guarded text (width front) steps =
      .of ((TextTerm.readAll context compilers (width front) rest).map (steps ++ ·)) := by
  subst ht
  rw [scan, TextTerm.readAt_eq front hg, TextTerm.readAll_eq]
  cases hr : TextTerm.read? context compilers (width front) rest with
  | none => simp [Except.map, Guarded.pure_eq]
  | some found =>
    cases found with
    | error fault => rfl
    | ok term =>
      obtain ⟨used, hused, hnext⟩ := TextTerm.exists_used_of_read? hr
      have hshort := TextTerm.read?_length hr
      have hlead := hnext ▸ Source.leads_on front hused hshort
      have hfault := TextTerm.joinFaultAt?_eq (front ++ used) term.rest
      have hothers := @scan_eq (front ++ rest) (front ++ used) term.rest hg
        (by rw [List.append_assoc, ← hused])
      rw [List.append_assoc, ← hused, ← hnext] at hfault
      rw [← hnext] at hothers
      simp only [Except.map, Guarded.of_ok_bind, Function.comp_apply, TextTerm.told, dif_pos hlead,
        hfault, hothers]
      cases TextTerm.joinFault? term.next term.rest with
      | some fault => rfl
      | none =>
        cases TextTerm.readAll context compilers term.next term.rest with
        | error fault => rfl
        | ok others => simp
termination_by rest.length

/-- No operation fails in a text expression, if none does in shorter ones and none does in numeric
texts of the same bytes. -/
theorem compileGuarded_eq {raw : String} (hg : guarded.Safe (width raw.toList + 1) compilers) :
    compileGuarded context guarded raw = .of (compileWith context compilers raw) := by
  have hscan : scan context guarded raw.toList 0 [] = _ :=
    scan_eq hg (List.nil_append raw.toList).symm []
  rw [compileGuarded, compileWith]
  have hmark : Source.nextMark? raw.toList 0 = none ↔ ∀ c ∈ raw.toList, isTextMark c = false :=
    nextMark?_eq_none_iff [] raw.toList
  by_cases hm : ∀ c ∈ raw.toList, isTextMark c = false
  · rw [hmark.mpr hm, TextTerm.readAll_eq, TextTerm.read?_eq_none_iff.mpr hm]
    rfl
  · have hsome : Source.nextMark? raw.toList 0 ≠ none := hmark.not.mpr hm
    rw [if_neg (by simpa using hsome)]
    simp only [hscan]
    rw [Source.width_nil]
    cases hr : TextTerm.readAll context compilers 0 raw.toList with
    | error fault => rfl
    | ok steps =>
      cases steps with
      | nil => exact absurd (TextTerm.unmarked_of_readAll hr) hm
      | cons step others => rfl

end TextForm
end Agreement
end SceneFormula
