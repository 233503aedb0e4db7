import Mathlib.Data.Nat.Find
import SceneFormula.Proofs.AddedParameters
import SceneFormula.Proofs.Progress

/-! Which numeric calls are accepted, and which fault is told of one that is not. Parameters are
prepared in order, before the end of the list and their number are looked at; a fault is told if
nothing that is looked at earlier is wrong. -/
namespace SceneFormula
open Source (Argument ArgumentList isBroken separators width)

def Callee.Opens (callee : Callee) (nameEnd : Nat) (list : ArgumentList) : Prop :=
  ∃ spaces inside, callee.tail = List.replicate spaces ' ' ++ '(' :: inside ∧
    list = ArgumentList.read (nameEnd + spaces + 1) inside

namespace Target
variable (context : Context) (compilers : Compilers) (target : Target)

def faultAt? (index : Nat) (argument : Argument) : Option Fault :=
  compilers.faultAt? context.options (String.ofList argument.text) argument.start
    target.declarations[target.receivers.length + index]?

def Faultless (list : ArgumentList) : Prop :=
  ∀ index argument, list.given[index]? = some argument →
    target.faultAt? context compilers index argument = none

def Admits (list : ArgumentList) : Prop :=
  ResultKind.number.Allows target.declarations (target.receivers.length + list.given.length)

/-- A call that is accepted: its list is closed, it has as many parameters as the function may have,
and each argument can be prepared as it is declared. -/
structure Accepts (list : ArgumentList) : Prop where
  closed : list.rest ≠ none
  count : target.Admits list
  arguments (index : Nat) (argument : Argument) (h : list.given[index]? = some argument) :
    ∃ declaration parameter,
      target.declarations[target.receivers.length + index]? = some declaration ∧
      Binds context.world compilers declaration.kind.treatment (String.ofList argument.text)
        parameter

/-- A call that is refused, with the first fault that applies. The name of the function ends at
`nameEnd`, and the text at `stop`. -/
inductive Refuses (callee : Callee) (nameEnd stop : Nat) : Fault → Prop
  | unopened (h : ∀ list, ¬ callee.Opens nameEnd list) :
    Refuses callee nameEnd stop (.missingParameterParentheses nameEnd)
  | argument {list : ArgumentList} {index : Nat} {argument : Argument} {fault : Fault}
    (ho : callee.Opens nameEnd list) (ha : list.given[index]? = some argument)
    (hf : target.faultAt? context compilers index argument = some fault)
    (hb : ∀ earlier other, earlier < index → list.given[earlier]? = some other →
      target.faultAt? context compilers earlier other = none) :
    Refuses callee nameEnd stop fault
  | unclosed {list : ArgumentList} (ho : callee.Opens nameEnd list)
    (hn : target.Faultless context compilers list) (hr : list.rest = none) :
    Refuses callee nameEnd stop (.unterminatedParentheses (stop - 1))
  | count {list : ArgumentList} (ho : callee.Opens nameEnd list)
    (hn : target.Faultless context compilers list) (hr : list.rest ≠ none)
    (hc : ¬ target.Admits list) :
    Refuses callee nameEnd stop (.wrongParameterCount nameEnd (mandatoryCount target.declarations)
      target.declarations.length (target.receivers.length + list.given.length))

end Target

/-- What was read of a text, and what is left of it when the next stretch is read. -/
inductive Stretch.Reaches (context : Context) (compilers : Compilers) (source : List Char) :
    List Char → List Char → Prop
  | start : Reaches context compilers source [] source
  | behind {front used : List Char} {stretch : Stretch}
    (h : Reaches context compilers source front (used ++ stretch.rest))
    (hr : read context compilers (width front) (used ++ stretch.rest) = .ok stretch) :
    Reaches context compilers source (front ++ used) stretch.rest

namespace NumericCall
section Adding
variable (context : Context) (compilers : Compilers) (declarations : List Declaration)

/-- One more parameter is added if it has no fault. -/
private theorem exists_addAll_cons (parameters : List Expression) (written : Argument)
    (rest : List Argument) :
    ∃ entry, addAll context compilers declarations parameters (written :: rest) =
      match compilers.faultAt? context.options (String.ofList written.text) written.start
          declarations[parameters.length]? with
      | some fault => .error fault
      | none => addAll context compilers declarations (parameters ++ [entry]) rest := by
  obtain ⟨answer, entry, hstep, hadded⟩ := exists_added context compilers declarations parameters
    (String.ofList written.text) written.start
  refine ⟨entry, ?_⟩
  rw [addAll, hstep, ← hadded.answer_eq]
  cases answer <;> rfl

/-- Parameters are added up to the first that has a fault. -/
private theorem addAll_eq_error_iff (parameters : List Expression) (arguments : List Argument)
    (fault : Fault) :
    addAll context compilers declarations parameters arguments = .error fault ↔
      ∃ index argument, arguments[index]? = some argument ∧
        compilers.faultAt? context.options (String.ofList argument.text) argument.start
          declarations[parameters.length + index]? = some fault ∧
        ∀ earlier other, earlier < index → arguments[earlier]? = some other →
          compilers.faultAt? context.options (String.ofList other.text) other.start
            declarations[parameters.length + earlier]? = none := by
  induction arguments generalizing parameters with
  | nil => simp [addAll]
  | cons written rest ih =>
    obtain ⟨entry, hcons⟩ :=
      exists_addAll_cons context compilers declarations parameters written rest
    have hplace (index : Nat) :
        (parameters ++ [entry]).length + index = parameters.length + (index + 1) := by
      rw [List.length_append, List.length_singleton]
      omega
    rw [hcons]
    cases hf : compilers.faultAt? context.options (String.ofList written.text) written.start
        declarations[parameters.length]? with
    | some own =>
      constructor
      · intro h
        obtain rfl := Except.error.inj h
        exact ⟨0, written, rfl, hf, fun _ _ h => absurd h (Nat.not_lt_zero _)⟩
      · rintro ⟨index, argument, ha, hfault, hbefore⟩
        cases index with
        | zero =>
          obtain rfl := Option.some.inj ha
          exact congrArg Except.error (Option.some.inj (hf.symm.trans hfault))
        | succ index =>
          have hnone := hbefore 0 written index.succ_pos rfl
          exact absurd (hf.symm.trans hnone) (Option.some_ne_none own)
    | none =>
      refine (ih (parameters ++ [entry])).trans ?_
      simp only [hplace]
      constructor
      · rintro ⟨index, argument, ha, hfault, hbefore⟩
        refine ⟨index + 1, argument, ha, hfault, fun earlier other hlt ho => ?_⟩
        cases earlier with
        | zero =>
          obtain rfl := Option.some.inj ho
          exact hf
        | succ earlier => exact hbefore earlier other (Nat.lt_of_succ_lt_succ hlt) ho
      · rintro ⟨index, argument, ha, hfault, hbefore⟩
        cases index with
        | zero =>
          obtain rfl := Option.some.inj ha
          exact absurd (hfault.symm.trans hf) (Option.some_ne_none fault)
        | succ index =>
          exact ⟨index, argument, ha, hfault, fun earlier other hlt ho =>
            hbefore (earlier + 1) other (Nat.succ_lt_succ hlt) ho⟩

/-- What is added to a list stands behind it, one entry for each argument. -/
private theorem length_of_addAll {parameters all : List Expression} {arguments : List Argument}
    (h : addAll context compilers declarations parameters arguments = .ok all) :
    all.length = parameters.length + arguments.length := by
  induction arguments generalizing parameters with
  | nil =>
    obtain rfl := Except.ok.inj h
    rfl
  | cons written rest ih =>
    obtain ⟨entry, hcons⟩ :=
      exists_addAll_cons context compilers declarations parameters written rest
    rw [hcons] at h
    split at h
    · cases h
    · rw [ih h, List.length_append, List.length_singleton, List.length_cons]
      omega

end Adding
end NumericCall

variable {context : Context} {compilers : Compilers} {target : Target} {list : ArgumentList}

theorem Target.Accepts.faultless (h : target.Accepts context compilers list) :
    target.Faultless context compilers list := by
  intro index argument ha
  obtain ⟨declaration, parameter, hd, hb⟩ := h.arguments index argument ha
  rw [faultAt?, hd, Compilers.faultAt?, (Compilers.fault?_eq_none_iff context).mpr ⟨_, hb⟩]
  rfl

/-- Of the arguments that are at fault there is a first one. -/
theorem Target.exists_first_fault (h : ¬ target.Faultless context compilers list) :
    ∃ index argument fault, list.given[index]? = some argument ∧
      target.faultAt? context compilers index argument = some fault ∧
      ∀ earlier other, earlier < index → list.given[earlier]? = some other →
        target.faultAt? context compilers earlier other = none := by
  classical
  have hsome : ∃ index argument fault, list.given[index]? = some argument ∧
      target.faultAt? context compilers index argument = some fault := by
    simpa [Faultless, Option.ne_none_iff_exists'] using h
  obtain ⟨argument, fault, ha, hf⟩ := Nat.find_spec hsome
  refine ⟨_, argument, fault, ha, hf, fun earlier other hlt ho => ?_⟩
  cases hother : target.faultAt? context compilers earlier other with
  | none => rfl
  | some own => exact absurd ⟨other, own, ho, hother⟩ (Nat.find_min hsome hlt)

/-- Where the number of parameters is right every argument is declared. -/
theorem Target.Faultless.accepts (h : target.Faultless context compilers list)
    (hr : list.rest ≠ none) (hc : target.Admits list) : target.Accepts context compilers list where
  closed := hr
  count := hc
  arguments index argument ha := by
    have hlt : target.receivers.length + index < target.declarations.length :=
      Nat.lt_of_lt_of_le
        (Nat.add_lt_add_left (List.getElem?_eq_some_iff.mp ha).1 _) hc.2
    have hnone := h index argument ha
    rw [faultAt?, List.getElem?_eq_getElem hlt, Compilers.faultAt?, Option.map_eq_none_iff,
      Compilers.fault?_eq_none_iff context] at hnone
    obtain ⟨parameter, hb⟩ := hnone
    exact ⟨_, parameter, List.getElem?_eq_getElem hlt, hb⟩

namespace NumericCall

private theorem addAll_given_eq_error_iff {fault : Fault} :
    addAll context compilers target.declarations (target.receivers.map (.ofRaw context.world))
        list.given = .error fault ↔
      ∃ index argument, list.given[index]? = some argument ∧
        target.faultAt? context compilers index argument = some fault ∧
        ∀ earlier other, earlier < index → list.given[earlier]? = some other →
          target.faultAt? context compilers earlier other = none := by
  rw [addAll_eq_error_iff, List.length_map]
  rfl

/-- Arguments without a fault are all added. -/
private theorem exists_addAll_given (h : target.Faultless context compilers list) :
    ∃ parameters, parameters.length = target.receivers.length + list.given.length ∧
      addAll context compilers target.declarations (target.receivers.map (.ofRaw context.world))
        list.given = .ok parameters := by
  cases hadd : addAll context compilers target.declarations
      (target.receivers.map (.ofRaw context.world)) list.given with
  | error fault =>
    obtain ⟨index, argument, ha, hf, -⟩ := addAll_given_eq_error_iff.mp hadd
    exact absurd (hf.symm.trans (h index argument ha)) (Option.some_ne_none fault)
  | ok parameters =>
    exact ⟨parameters, by rw [length_of_addAll _ _ _ hadd, List.length_map], rfl⟩

end NumericCall

/-- A text that is not too deep is compiled, its parameters one level deeper. -/
theorem Context.number_compilersAt {depth : Nat} (h : depth ≤ context.options.maxDepth.toNat)
    (raw : String) :
    (context.compilersAt depth).number raw =
      NumericForm.compileWith context (context.compilersAt (depth + 1)) raw := by
  have hlevels : context.options.maxDepth.toNat + 1 - depth =
      context.options.maxDepth.toNat + 1 - (depth + 1) + 1 := by omega
  rw [compilersAt, compilersAt, hlevels]
  rfl

namespace Stretch
variable {source front rest : List Char} {callee : Callee} {fault : Fault}

/-- A list that is not closed stops where the text does. -/
private theorem stop_of_opens (hn : Callee.next? rest = some callee)
    (ho : callee.Opens (nameEnd (width front) callee) list) (hr : list.rest = none) :
    list.stop = width (front ++ rest) := by
  have hopen := ArgumentList.open?_eq_some_iff.mpr ho
  rw [nameEnd_eq (ne_nil_of_open? hopen)] at hopen
  rw [ArgumentList.stop_of_open hopen hr, ← Callee.next?_append hn]
  simp only [List.append_assoc]

/-- A call that is accepted is replaced. -/
private theorem ofTarget_of_accepts {offset : Nat}
    (ho : callee.Opens (nameEnd offset callee) list)
    (h : target.Accepts context compilers list) :
    ∃ call next behind, call.routine = target.routine ∧
      ofTarget context compilers offset callee target =
        .ok ⟨callee.lead, some call, next, behind⟩ := by
  obtain ⟨parameters, hlength, hadd⟩ := NumericCall.exists_addAll_given h.faultless
  obtain ⟨behind, hr⟩ := Option.ne_none_iff_exists'.mp h.closed
  have hcount := h.count
  rw [Target.Admits, ResultKind.Allows, ← hlength] at hcount
  refine ⟨⟨target.routine, parameters⟩, list.stop + 1, behind, rfl, ?_⟩
  simp only [ofTarget, ArgumentList.open?_eq_some_iff.mpr ho, NumericCall.ofList, hadd, hr]
  rw [if_pos hcount]

/-- A call that is refused fails with the fault that applies first. -/
private theorem ofTarget_of_refuses (hn : Callee.next? rest = some callee)
    (h : target.Refuses context compilers callee (nameEnd (width front) callee)
      (width (front ++ rest)) fault) :
    ofTarget context compilers (width front) callee target = .error fault := by
  cases h with
  | unopened h =>
    have hnone := Option.eq_none_iff_forall_not_mem.mpr fun list hopen =>
      h list (ArgumentList.open?_eq_some_iff.mp hopen)
    simp only [ofTarget, hnone]
  | argument ho ha hf hb =>
    have hadd := NumericCall.addAll_given_eq_error_iff.mpr ⟨_, _, ha, hf, hb⟩
    simp only [ofTarget, ArgumentList.open?_eq_some_iff.mpr ho, NumericCall.ofList, hadd]
  | unclosed ho hfree hr =>
    obtain ⟨parameters, -, hadd⟩ := NumericCall.exists_addAll_given hfree
    simp only [ofTarget, ArgumentList.open?_eq_some_iff.mpr ho, NumericCall.ofList, hadd, hr,
      stop_of_opens hn ho hr]
  | count ho hfree hr hc =>
    obtain ⟨parameters, hlength, hadd⟩ := NumericCall.exists_addAll_given hfree
    obtain ⟨behind, hr⟩ := Option.ne_none_iff_exists'.mp hr
    rw [Target.Admits, ResultKind.Allows, ← hlength] at hc
    simp only [ofTarget, ArgumentList.open?_eq_some_iff.mpr ho, NumericCall.ofList, hadd, hr]
    rw [if_neg hc, hlength]

/-- A call is accepted or refused. -/
private theorem accepts_or_refuses (context : Context) (compilers : Compilers) (target : Target)
    (callee : Callee) (place stop : Nat) :
    (∃ list, callee.Opens place list ∧ target.Accepts context compilers list) ∨
      ∃ fault, target.Refuses context compilers callee place stop fault := by
  by_cases ho : ∃ list, callee.Opens place list
  · obtain ⟨list, ho⟩ := ho
    by_cases hfree : target.Faultless context compilers list
    · by_cases hr : list.rest = none
      · exact .inr ⟨_, .unclosed ho hfree hr⟩
      · by_cases hc : target.Admits list
        · exact .inl ⟨list, ho, hfree.accepts hr hc⟩
        · exact .inr ⟨_, .count ho hfree hr hc⟩
    · obtain ⟨index, argument, fault, ha, hf, hb⟩ := Target.exists_first_fault hfree
      exact .inr ⟨fault, .argument ho ha hf hb⟩
  · exact .inr ⟨_, .unopened (not_exists.mp ho)⟩

/-- A fault that is met where reading gets to is the fault of the whole text. -/
private theorem Reaches.readAll_eq_error (h : Reaches context compilers source front rest)
    (hf : readAll context compilers (width front) rest = .error fault) :
    readAll context compilers 0 source = .error fault := by
  induction h with
  | start => exact hf
  | @behind front used stretch h hr ih =>
    refine ih ?_
    obtain ⟨through, htext, hnext⟩ := exists_used_of_read hr
    obtain rfl := List.append_cancel_right htext
    by_cases hnil : used ++ stretch.rest = []
    · obtain ⟨rfl, hrest⟩ := List.append_eq_nil_iff.mp hnil
      rw [hrest] at hf
      rw [readAll, dif_pos rfl] at hf
      cases hf
    · rw [readAll_eq hnil, hr]
      simp only [hnext, hf]

/-- What was read and what is left are the whole text. -/
theorem Reaches.append (h : Reaches context compilers source front rest) :
    front ++ rest = source := by
  induction h with
  | start => rfl
  | behind _ _ ih => rw [List.append_assoc, ih]

/-- Wherever reading a numeric text meets a call of a known function, the call is either accepted or
refused. It is accepted exactly if its list opens and is closed, the number of its parameters is in
range and each argument can be prepared one level deeper as it is declared. Otherwise the fault is
the first that applies, and the whole text fails with it. -/
theorem read_call (context : Context) (depth : Nat) (source : String) (front rest : List Char)
    (callee : Callee) (target : Target)
    (hreach : Reaches context (context.compilersAt (depth + 1)) source.toList front rest)
    (hnext : Callee.next? rest = some callee)
    (hname : isBroken separators (functionName callee) = false)
    (htarget : target? context.world callee = some target) :
    let compilers := context.compilersAt (depth + 1)
    let place := nameEnd (width front) callee
    let answer := read context compilers (width front) rest
    ((∃ call next behind, call.routine = target.routine ∧
        answer = .ok ⟨callee.lead, some call, next, behind⟩) ↔
      ∃ list, callee.Opens place list ∧ target.Accepts context compilers list) ∧
    (∀ fault, answer = .error fault ↔
      target.Refuses context compilers callee place (width source.toList) fault) ∧
    ∀ fault, depth ≤ context.options.maxDepth.toNat → answer = .error fault →
      (context.compilersAt depth).number source = .error fault := by
  intro compilers place answer
  have hanswer : answer = ofTarget context compilers (width front) callee target := by
    simp only [answer, read, hnext, hname, htarget]
    rfl
  have hrefused (fault : Fault)
      (h : target.Refuses context compilers callee place (width source.toList) fault) :
      answer = .error fault := by
    rw [hanswer]
    refine ofTarget_of_refuses hnext ?_
    rwa [hreach.append]
  have hone := accepts_or_refuses context compilers target callee place (width source.toList)
  refine ⟨⟨?_, ?_⟩, fun fault => ⟨fun h => ?_, hrefused fault⟩, fun fault hdepth h => ?_⟩
  · rintro ⟨call, next, behind, -, h⟩
    rcases hone with haccepts | ⟨fault, hrefuses⟩
    · exact haccepts
    · have hclash := h.symm.trans (hrefused fault hrefuses)
      cases hclash
  · rintro ⟨list, ho, haccepts⟩
    rw [hanswer]
    exact ofTarget_of_accepts ho haccepts
  · rcases hone with ⟨list, ho, haccepts⟩ | ⟨own, hrefuses⟩
    · obtain ⟨call, next, behind, -, hok⟩ := ofTarget_of_accepts ho haccepts
      have hclash := (hanswer.symm.trans h).symm.trans hok
      cases hclash
    · obtain rfl := Except.error.inj (h.symm.trans (hrefused own hrefuses))
      exact hrefuses
  · have hne : rest ≠ [] := by
      rintro rfl
      cases hnext
    have hall : readAll context compilers (width front) rest = .error fault := by
      rw [readAll_eq hne, show read context compilers (width front) rest = .error fault from h]
    rw [Context.number_compilersAt hdepth, NumericForm.compileWith, hreach.readAll_eq_error hall]

/-- A list that has a faulty argument, a surplus one and no end: the faulty argument is told. -/
theorem read_call_sample :
    let source := "2 * Len(\"a\" + X(), 3"
    let callee : Callee :=
      ⟨['2', ' ', '*', ' '], ['L', 'e', 'n'], none, "(\"a\" + X(), 3".toList⟩
    let target : Target := ⟨.free ⟨4⟩, [⟨.text, false⟩], []⟩
    Callee.next? source.toList = some callee ∧
      target? Context.textSample.world callee = some target ∧
      target.Refuses Context.textSample (Context.textSample.compilersAt 1) callee 7 20
        (.unrecognizedFunction "X" 14) ∧
      (Context.textSample.compilersAt 0).number source = .error (.unrecognizedFunction "X" 14) := by
  intro source callee target
  have hnext : Callee.next? source.toList = some callee := by decide +kernel
  have htarget : target? Context.textSample.world callee = some target := by decide +kernel
  obtain ⟨-, hrefused, hwhole⟩ := read_call Context.textSample 0 source [] source.toList callee
    target .start hnext (by decide +kernel) htarget
  have hanswer : Fault.ofAnswer? (read Context.textSample (Context.textSample.compilersAt 1)
      (width []) source.toList) = some (.unrecognizedFunction "X" 14) := by decide +kernel
  have herror := Fault.ofAnswer?_eq_some_iff.mp hanswer
  have hplace : nameEnd (width []) callee = 7 := by decide +kernel
  have hstop : width source.toList = 20 := by decide +kernel
  refine ⟨hnext, htarget, ?_, hwhole _ (Nat.zero_le _) herror⟩
  rw [← hplace, ← hstop]
  exact (hrefused _).mp herror

end Stretch
end SceneFormula
