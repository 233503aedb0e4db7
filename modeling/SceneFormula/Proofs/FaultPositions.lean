import SceneFormula.Formula.Compile
import SceneFormula.Proofs.FaultPlaces
import SceneFormula.Proofs.Progress
import SceneFormula.Proofs.Targets
import SceneFormula.Proofs.TextLanguage

/-! Every fault of a text lies in it. Reading goes on at the offset of what is left, so that a fault
is told as one of the whole text, and the faults of arguments are moved to where these start. -/
namespace SceneFormula
open Arithmetic (Program)
open Source (Argument ArgumentList HasAt Names width)

def Scope.receivers : Scope → List ParameterKind
  | free => []
  | object _ => [.object]
  | component _ => [.object, .automatism]

/-- A world in which functions of objects declare the object first, and functions of components the
object and then the component. -/
def World.DeclaresReceivers (world : World) : Prop :=
  ∀ {kind : ResultKind} {scope : Scope} {name : String} {signature : Signature},
    world.function? kind scope name = some signature →
      scope.receivers <+: signature.parameters.map (·.kind)

theorem World.DeclaresReceivers.ofTables {functions : FunctionTable} {scene : SceneTable}
    {names : NameTable} (h : ∀ entry ∈ functions.entries,
      entry.1.scope.receivers <+: entry.2.parameters.map (·.kind)) :
    (World.ofTables functions scene names).DeclaresReceivers := by
  intro kind scope name signature hf
  obtain ⟨before, after, he, -⟩ := List.lookup_eq_some_iff.mp hf
  exact h (⟨kind, scope, name⟩, signature) (he ▸ List.mem_append_right _ List.mem_cons_self)

/-- Compilers whose faults lie in the texts that they are of. -/
structure Compilers.Locate (compilers : Compilers) : Prop where
  number {raw : String} {fault : Fault} (h : compilers.number raw = .error fault) :
    fault.LiesIn raw.toList
  text {raw : String} {fault : Fault} (h : compilers.text raw = .error fault) :
    fault.LiesIn raw.toList

section Lists
variable {front text : List Char} {list : ArgumentList}

/-- A name ends at a space or at the opening parenthesis. -/
private theorem Fault.LiesIn.wrongParameterCount
    (h : ArgumentList.open? (width front) text = some list) (atLeast atMost found : Nat) :
    (Fault.wrongParameterCount (width front) atLeast atMost found).LiesIn (front ++ text) := by
  obtain ⟨spaces, inside, rfl, -⟩ := ArgumentList.open?_eq_some_iff.mp h
  refine .of_lt rfl (Source.width_lt_append front (ne_nil_of_open? h)) ?_
  cases spaces with
  | zero => exact .intro (by simp) rfl front inside
  | succ spaces => exact .intro (by simp) rfl front (List.replicate spaces ' ' ++ '(' :: inside)

/-- The parentheses of a list that is not closed end with the text. -/
private theorem Fault.LiesIn.unterminatedParentheses
    (h : ArgumentList.open? (width front) text = some list) (hr : list.rest = none) :
    (Fault.unterminatedParentheses (list.stop - 1)).LiesIn (front ++ text) := by
  have hpos : width (front ++ text) ≠ 0 := fun hz =>
    ne_nil_of_open? h (List.append_eq_nil_iff.mp (Source.eq_nil_of_width hz)).2
  rw [ArgumentList.stop_of_open h hr]
  exact .of_lt rfl (by omega) (.inl (by omega))

end Lists

section Parameters
variable {context : Context} {compilers : Compilers} {whole : List Char}

/-- The fault of a parameter is one of its own text, moved to where that starts. -/
private theorem exists_fault_of_bindTo (hc : compilers.Locate) {options : Options}
    {declaration : Declaration} {base : Nat} {parameter other : Expression} {fault : Fault}
    (h : parameter.bindTo compilers options declaration base = (some fault, other)) :
    ∃ inner : Fault, fault = inner.movedBy base ∧ inner.LiesIn parameter.raw.toList := by
  unfold Expression.bindTo at h
  cases ht : declaration.kind.treatment with
  | number =>
    simp only [ht, Expression.prepareNumberWith] at h
    cases hn : compilers.number parameter.raw with
    | ok form => simp [hn] at h
    | error inner =>
      rw [hn] at h
      exact ⟨inner, (Option.some.inj (Prod.mk.inj h).1).symm, hc.number hn⟩
  | text =>
    simp only [ht, Expression.prepareTextWith] at h
    cases hn : compilers.text parameter.raw with
    | ok form => simp [hn] at h
    | error inner =>
      rw [hn] at h
      exact ⟨inner, (Option.some.inj (Prod.mk.inj h).1).symm, hc.text hn⟩
  | verbatim =>
    rw [ht] at h
    cases h

/-- The fault of an argument lies in the text in which the argument stands. -/
private theorem Fault.LiesIn.of_bindTo (hc : compilers.Locate) {options : Options}
    {declaration : Declaration} {argument : Argument} (ha : argument.StandsIn whole)
    {other : Expression} {fault : Fault}
    (h : (Expression.ofRaw context.world (String.ofList argument.text)).bindTo compilers options
      declaration argument.start = (some fault, other)) : fault.LiesIn whole := by
  obtain ⟨inner, rfl, hi⟩ := exists_fault_of_bindTo hc h
  have hraw : (Expression.ofRaw context.world (String.ofList argument.text)).raw.toList =
    argument.text := String.toList_ofList
  exact .of_argument ha (hraw ▸ hi)

/-- A surplus argument starts behind a comma or the opening parenthesis. -/
private theorem Fault.LiesIn.tooManyParameters {argument : Argument}
    (ha : argument.StandsIn whole) : (Fault.tooManyParameters argument.start).LiesIn whole := by
  cases ha with
  | @intro before written after opening ho ha hne =>
    have hopening : String.utf8EncodeChar opening = [opening.toUInt8] ∧ opening.utf8Size = 1 := by
      simp only [List.mem_cons, List.not_mem_nil, or_false] at ho
      rcases ho with rfl | rfl <;> exact ⟨rfl, rfl⟩
    have hlt := Source.width_lt_append (before ++ [opening]) hne
    rw [Source.width_append, Source.width_cons, hopening.2, List.append_assoc] at hlt
    exact .of_lt rfl hlt ⟨width before, rfl, .intro (by simpa [or_comm] using ho) hopening.1 _ _⟩

private theorem NumericCall.fault_of_addAll (hc : compilers.Locate)
    {declarations : List Declaration} {parameters : List Expression} {arguments : List Argument}
    (ha : ∀ argument ∈ arguments, argument.StandsIn whole) {fault : Fault}
    (h : addAll context compilers declarations parameters arguments = .error fault) :
    fault.LiesIn whole := by
  induction arguments generalizing parameters with
  | nil => cases h
  | cons argument rest ih =>
    rw [addAll] at h
    split at h
    · rename_i found other hadd
      obtain rfl := Except.error.inj h
      simp only [addParameter] at hadd
      split at hadd
      · rename_i declaration _
        generalize hb : Expression.bindTo compilers _ _ _ _ = bound at hadd
        obtain ⟨first, parameter⟩ := bound
        obtain ⟨rfl, -⟩ := Prod.mk.inj hadd
        exact .of_bindTo hc (ha argument List.mem_cons_self) hb
      · split at hadd
        · obtain ⟨hfound, -⟩ := Prod.mk.inj hadd
          obtain rfl := Option.some.inj hfound
          exact .tooManyParameters (ha argument List.mem_cons_self)
        · cases hadd
    · exact ih (fun other ho => ha other (List.mem_cons_of_mem _ ho)) h

end Parameters
section Numeric
variable {context : Context} {compilers : Compilers} {front text : List Char}

private theorem NumericCall.fault_of_ofList (hc : compilers.Locate) {target : Target}
    {list : ArgumentList} (ho : ArgumentList.open? (width front) text = some list) {fault : Fault}
    (h : ofList context compilers target (width front) list = .error fault) :
    fault.LiesIn (front ++ text) := by
  simp only [ofList] at h
  split at h
  · rename_i found hadd
    obtain rfl := Except.error.inj h
    exact fault_of_addAll hc (fun argument => ArgumentList.standsIn_of_mem_given ho) hadd
  · split at h
    · rename_i hr
      obtain rfl := Except.error.inj h
      exact .unterminatedParentheses ho hr
    · split at h
      · cases h
      · obtain rfl := Except.error.inj h
        exact .wrongParameterCount ho _ _ _

namespace Stretch

/-- A name that runs to the end of the text is told at its last byte. -/
private theorem nameEnd_lt {callee : Callee} (hs : callee.Splits text) (hne : text ≠ []) :
    nameEnd (width front) callee < width (front ++ text) := by
  by_cases ht : callee.tail = []
  · have hpos := Source.width_lt_append front hne
    have htext := hs.text
    rw [ht, List.append_nil] at htext
    rw [nameEnd, if_pos ht, htext, ← Source.width_append]
    omega
  · have hlt := Source.width_lt_append (front ++ (callee.lead ++ callee.written)) ht
    rwa [List.append_assoc, hs.text, ← nameEnd_eq ht] at hlt

private theorem fault_of_ofTarget (hc : compilers.Locate) {callee : Callee}
    (hs : callee.Splits text) (hne : text ≠ []) {target : Target} {fault : Fault}
    (h : ofTarget context compilers (width front) callee target = .error fault) :
    fault.LiesIn (front ++ text) := by
  unfold ofTarget at h
  split at h
  · obtain rfl := Except.error.inj h
    exact .of_lt rfl (nameEnd_lt hs hne) trivial
  · rename_i list ho
    rw [nameEnd_eq (ne_nil_of_open? ho)] at ho h
    split at h
    · rename_i found hl
      obtain rfl := Except.error.inj h
      rw [← hs.text, ← List.append_assoc front]
      exact NumericCall.fault_of_ofList hc ho hl
    · cases h

private theorem fault_of_read (hc : compilers.Locate) (hne : text ≠ []) {fault : Fault}
    (h : read context compilers (width front) text = .error fault) :
    fault.LiesIn (front ++ text) := by
  unfold read at h
  split at h
  · cases h
  · rename_i callee hn
    split at h
    · cases h
    · split at h
      · cases h
      · exact fault_of_ofTarget hc (Callee.next?_eq_some_iff.mp hn) hne h

private theorem fault_of_readAll (hc : compilers.Locate) (front text : List Char) {fault : Fault}
    (h : readAll context compilers (width front) text = .error fault) :
    fault.LiesIn (front ++ text) := by
  by_cases hne : text = []
  · rw [hne, readAll, dif_pos rfl] at h
    cases h
  · rw [readAll_eq hne] at h
    split at h
    · rename_i found hr
      obtain rfl := Except.error.inj h
      exact fault_of_read hc hne hr
    · rename_i stretch hr
      have hlength := read_length hr hne
      obtain ⟨used, rfl, hnext⟩ := exists_used_of_read hr
      split at h
      · rename_i found hothers
        obtain rfl := Except.error.inj h
        rw [hnext] at hothers
        rw [← List.append_assoc]
        exact fault_of_readAll hc (front ++ used) stretch.rest hothers
      · cases h
termination_by text.length

end Stretch

private theorem NumericForm.fault_of_compileWith (hc : compilers.Locate) {raw : String}
    {fault : Fault} (h : compileWith context compilers raw = .error fault) :
    fault.LiesIn raw.toList := by
  simp only [compileWith] at h
  split at h
  · rename_i found hr
    obtain rfl := Except.error.inj h
    exact Stretch.fault_of_readAll hc [] raw.toList hr
  · split at h
    · rename_i found hp
      obtain rfl := Except.error.inj h
      exact .of_unplaced (Program.position_of_parse hp)
    · cases h

end Numeric
section Textual
variable {context : Context} {compilers : Compilers} {front text : List Char}

/-- What is declared first is a receiver, and no receiver is prepared. -/
private theorem World.Means.bindAll_receivers {world : World} (hd : world.DeclaresReceivers)
    {kind : ResultKind} {receiver : Option String} {name : String} {target : Target}
    (h : world.Means kind receiver name target) {options : Options} {base : Nat}
    {parameters : List (Expression × Nat)} {fault : Fault}
    (hb : TextTerm.bindAll compilers options target.declarations
      (target.receivers.map (fun name => (Expression.ofRaw world name, base)) ++ parameters) =
        .error fault) :
    ∃ declarations, TextTerm.bindAll compilers options declarations parameters = .error fault := by
  have verbatim {declaration : Declaration} {declarations : List Declaration}
      {parameter : Expression} {rest : List (Expression × Nat)}
      (hv : declaration.kind.treatment = .verbatim)
      (he : TextTerm.bindAll compilers options (declaration :: declarations)
        ((parameter, base) :: rest) = .error fault) :
      TextTerm.bindAll compilers options declarations rest = .error fault := by
    simp only [TextTerm.bindAll, Expression.bindTo, hv, Option.map_none] at he
    split at he
    · rename_i found ho
      exact ho.trans he
    · cases he
  cases h with
  | free hf => exact ⟨_, hb⟩
  | @object _ _ type signature _ hf =>
    obtain ⟨kinds, hkinds⟩ := hd hf
    obtain ⟨first, others, he, hfirst, -⟩ := List.map_eq_cons_iff.mp hkinds.symm
    simp only [he] at hb
    exact ⟨others, verbatim (by rw [hfirst]; rfl) hb⟩
  | @component _ _ _ _ type signature _ _ hf _ _ =>
    obtain ⟨kinds, hkinds⟩ := hd hf
    obtain ⟨first, behind, he, hfirst, hbehind⟩ := List.map_eq_cons_iff.mp hkinds.symm
    obtain ⟨second, others, rfl, hsecond, -⟩ := List.map_eq_cons_iff.mp hbehind
    simp only [he] at hb
    exact ⟨others, verbatim (by rw [hsecond]; rfl) (verbatim (by rw [hfirst]; rfl) hb)⟩

namespace TextTerm

private theorem fault_of_bindAll (hc : compilers.Locate) {whole : List Char}
    {options : Options} {declarations : List Declaration} {arguments : List Argument}
    (ha : ∀ argument ∈ arguments, argument.StandsIn whole) {fault : Fault}
    (h : bindAll compilers options declarations (arguments.map fun written =>
      (Expression.ofRaw context.world (String.ofList written.text), written.start)) =
        .error fault) : fault.LiesIn whole := by
  induction arguments generalizing declarations with
  | nil => cases declarations <;> cases h
  | cons argument rest ih =>
    cases declarations with
    | nil => cases h
    | cons declaration declarations =>
      rw [List.map_cons, bindAll] at h
      split at h
      · rename_i found other hb
        obtain rfl := Except.error.inj h
        exact .of_bindTo hc (ha argument List.mem_cons_self) hb
      · split at h
        · rename_i found ho
          obtain rfl := Except.error.inj h
          exact ih (fun other hm => ha other (List.mem_cons_of_mem _ hm)) ho
        · cases h

private theorem fault_of_call (hc : compilers.Locate) (hd : context.world.DeclaresReceivers)
    {receiver : Option String} {name : String} {target : Target}
    (ht : context.world.resolve .text receiver name = some target) {list : ArgumentList}
    (ho : ArgumentList.open? (width front) text = some list) (hr : list.rest ≠ none)
    {nameStart : Nat} {fault : Fault}
    (h : call context compilers target nameStart (width front) list = .error fault) :
    fault.LiesIn (front ++ text) := by
  simp only [call] at h
  split at h
  · obtain rfl := Except.error.inj h
    exact .wrongParameterCount ho _ _ _
  · split at h
    · rename_i found hb
      obtain rfl := Except.error.inj h
      obtain ⟨declarations, hb⟩ := (World.resolve_eq_some_iff.mp ht).bindAll_receivers hd hb
      exact fault_of_bindAll hc (fun argument => ArgumentList.standsIn_of_mem_arguments ho hr) hb
    · cases h

private theorem fault_of_number {name : String} {nameStart : Nat} {written : List Char}
    {fault : Fault} (h : number context compilers name nameStart written = .error fault) :
    fault = .unrecognizedFunction name nameStart := by
  simp only [number] at h
  split at h
  · cases h
  · exact (Except.error.inj h).symm

private theorem nameEnd_lt {callee : Callee} (hs : callee.Splits text) :
    nameEnd (width (front ++ callee.lead)) callee < width (front ++ text) := by
  by_cases ht : callee.tail = []
  · obtain ⟨member, hm⟩ : ∃ member, callee.member = some member := by
      cases hm : callee.member with
      | none =>
        obtain ⟨after, ha⟩ := hs.bare hm
        rw [ht] at ha
        cases ha
      | some member => exact ⟨member, rfl⟩
    have htext : front ++ text = front ++ callee.lead ++ callee.name ++ '.' :: member := by
      simp [← hs.text, Callee.written, hm, ht]
    rw [nameEnd, if_pos ht, ← Source.width_append, htext]
    exact Source.width_lt_append _ (List.cons_ne_nil _ _)
  · have hlt := Source.width_lt_append (front ++ (callee.lead ++ callee.written)) ht
    rwa [List.append_assoc, hs.text, ← nameEnd_eq ht] at hlt

/-- A call starts with the name of its function, or with that of an object without a dot. -/
private theorem names_function {callee : Callee} (hs : callee.Splits text) :
    Names callee.function (callee.written ++ callee.tail) := by
  rw [Callee.function, Callee.written]
  cases callee.member with
  | none => exact .inl (by simp)
  | some member =>
    have hdot : '.' ∉ callee.name := fun hm =>
      absurd (hs.unmarked '.' (List.mem_append_right _ hm)) (by decide)
    exact .inr ⟨callee.name, hdot, List.prefix_append _ _⟩

private theorem fault_of_ofCallee (hc : compilers.Locate) (hd : context.world.DeclaresReceivers)
    {callee : Callee} (hs : callee.Splits text) {fault : Fault}
    (h : ofCallee context compilers (width (front ++ callee.lead)) callee = .error fault) :
    fault.LiesIn (front ++ text) := by
  have htext : front ++ text = front ++ (callee.lead ++ callee.written) ++ callee.tail := by
    rw [List.append_assoc, hs.text]
  unfold ofCallee at h
  split at h
  · obtain rfl := Except.error.inj h
    exact .of_lt rfl (nameEnd_lt hs) trivial
  · rename_i list ho
    rw [nameEnd_eq (ne_nil_of_open? ho)] at ho
    split at h
    · rename_i hr
      obtain rfl := Except.error.inj h
      rw [htext]
      exact .unterminatedParentheses ho hr
    · rename_i rest hr
      split at h
      · rename_i found hl
        obtain rfl := Except.error.inj h
        simp only [ofList] at hl
        split at hl
        · rename_i target ht
          rw [nameEnd_eq (ne_nil_of_open? ho)] at hl
          rw [htext]
          exact fault_of_call hc hd ht ho (by simp [hr]) hl
        · obtain rfl := fault_of_number hl
          have hne : callee.written ++ callee.tail ≠ [] := by simp [ne_nil_of_open? ho]
          have hsplit :
              front ++ text = front ++ callee.lead ++ (callee.written ++ callee.tail) := by
            simp [← hs.text]
          refine .of_lt rfl ?_ ⟨front ++ callee.lead, _, hsplit, rfl, ?_⟩
          · rw [hsplit]
            exact Source.width_lt_append _ hne
          · rw [String.toList_ofList]
            exact names_function hs
      · cases h

private theorem fault_of_read? (hc : compilers.Locate) (hd : context.world.DeclaresReceivers)
    {fault : Fault} (h : read? context compilers (width front) text = some (.error fault)) :
    fault.LiesIn (front ++ text) := by
  obtain ⟨gap, behind, rfl, ht, hb, -⟩ := exists_cut isTextMark text
  simp only [read?, ht, hb] at h
  split at h
  · cases h
  · rename_i inside
    rw [Option.some.injEq, literal] at h
    split at h
    · obtain rfl := Except.error.inj h
      rw [← Source.width_append, ← List.append_assoc]
      exact .of_lt rfl (Source.width_lt_append _ (List.cons_ne_nil _ _))
        (.intro (by simp) rfl (front ++ gap) inside)
    · cases h
  · obtain ⟨callee, hn, ho⟩ := Option.map_eq_some_iff.mp h
    rw [← Source.width_append] at ho
    exact fault_of_ofCallee hc hd (Callee.next?_eq_some_iff.mp hn) ho

private theorem fault_of_joinFault? {fault : Fault}
    (h : joinFault? (width front) text = some fault) : fault.LiesIn (front ++ text) := by
  obtain ⟨gap, behind, rfl, ht, hb, -, hmark⟩ := exists_cut isTextMark text
  simp only [joinFault?, ht, hb] at h
  cases behind with
  | nil => cases h
  | cons mark behind =>
    rw [if_neg (by simp)] at h
    split at h
    · obtain rfl := Option.some.inj h
      rw [← Source.width_append, ← List.append_assoc]
      have hcase : mark = '.' ∨ mark = '(' ∨ mark = '"' := by
        simpa [isTextMark, Callee.isMark, or_assoc] using hmark mark rfl
      refine .of_lt rfl (Source.width_lt_append _ (List.cons_ne_nil _ _)) ?_
      rcases hcase with rfl | rfl | rfl <;> exact .intro (by simp) rfl (front ++ gap) behind
    · rename_i c more hplus
      split at h
      · obtain rfl := Option.some.inj h
        obtain ⟨before, after, rfl, htake, hdrop, -, hhead⟩ := exists_cut (· == '+') gap
        obtain rfl : c :: more = after := hplus.symm.trans hdrop
        obtain rfl : c = '+' := by simpa using hhead c rfl
        have hwidth : width ((before ++ '+' :: more).takeWhile (· != '+')) = width before :=
          congrArg width htake
        have hsplit : front ++ (before ++ '+' :: more ++ mark :: behind) =
            front ++ before ++ '+' :: (more ++ mark :: behind) := by simp
        rw [hwidth, ← Source.width_append, hsplit]
        exact .of_lt rfl (Source.width_lt_append _ (List.cons_ne_nil _ _))
          (.intro (by simp) rfl (front ++ before) (more ++ mark :: behind))
      · cases h

private theorem fault_of_readAll (hc : compilers.Locate) (hd : context.world.DeclaresReceivers)
    (front text : List Char) {fault : Fault}
    (h : readAll context compilers (width front) text = .error fault) :
    fault.LiesIn (front ++ text) := by
  rw [readAll_eq] at h
  split at h
  · cases h
  · rename_i found hr
    obtain rfl := Except.error.inj h
    exact fault_of_read? hc hd hr
  · rename_i term hr
    have hlength := read?_length hr
    obtain ⟨used, rfl, hnext⟩ := exists_used_of_read? hr
    rw [hnext] at h
    rw [← List.append_assoc]
    split at h
    · rename_i found hj
      obtain rfl := Except.error.inj h
      exact fault_of_joinFault? hj
    · split at h
      · rename_i found hothers
        obtain rfl := Except.error.inj h
        exact fault_of_readAll hc hd (front ++ used) term.rest hothers
      · cases h
termination_by text.length

end TextTerm

private theorem TextForm.fault_of_compileWith (hc : compilers.Locate)
    (hd : context.world.DeclaresReceivers) {raw : String} {fault : Fault}
    (h : compileWith context compilers raw = .error fault) : fault.LiesIn raw.toList := by
  simp only [compileWith] at h
  split at h
  · rename_i found hr
    obtain rfl := Except.error.inj h
    exact TextTerm.fault_of_readAll hc hd [] raw.toList hr
  · obtain rfl := Except.error.inj h
    refine ⟨fun hp => ?_, trivial⟩
    obtain rfl := Option.some.inj hp
    by_cases hempty : raw.toList = []
    · exact .inr ⟨hempty, rfl⟩
    · exact .inl (Source.width_lt_append [] hempty)
  · cases h

end Textual

/-- Whatever number of levels is left, faults lie in the texts that they are of. -/
theorem Compilers.ofLevels_locate {context : Context} (hd : context.world.DeclaresReceivers)
    (left : Nat) : (ofLevels context left).Locate := by
  induction left with
  | zero =>
    constructor
    all_goals
      intro raw fault h
      obtain rfl := Except.error.inj h
      exact .of_unplaced rfl
  | succ left ih =>
    exact ⟨fun h => NumericForm.fault_of_compileWith ih h,
      fun h => TextForm.fault_of_compileWith ih hd h⟩

namespace Context

/-- The fault of a text lies in the text, however deep in it the part is that it is a fault of. -/
theorem fault_liesIn (context : Context) (hd : context.world.DeclaresReceivers) (source : String)
    (fault : Fault)
    (h : context.compileNumber source = .error fault ∨
      context.compileText source = .error fault) : fault.LiesIn source.toList := by
  have hc := Compilers.ofLevels_locate hd (context.options.maxDepth.toNat + 1)
  exact h.elim hc.number hc.text

private theorem eq_error_of_map {α : Type} {answer : Except Fault α} {fault : Fault}
    (h : answer.map (fun _ => ()) = .error fault) : answer = .error fault := by
  cases answer with
  | ok value => cases h
  | error found => exact congrArg Except.error (Except.error.inj h)

theorem fault_liesIn_sample :
    textSample.world.DeclaresReceivers ∧
      textSample.compileText "\"é: \" + Upper(Upper(\"a\" \"b\"))" =
        .error (.missingConcatenationOperator 25) ∧
      (Fault.missingConcatenationOperator 25).LiesIn
        "\"é: \" + Upper(Upper(\"a\" \"b\"))".toList := by
  have hd : textSample.world.DeclaresReceivers :=
    World.DeclaresReceivers.ofTables (by decide)
  have h : textSample.compileText "\"é: \" + Upper(Upper(\"a\" \"b\"))" =
      .error (.missingConcatenationOperator 25) := eq_error_of_map (by decide +kernel)
  exact ⟨hd, h, fault_liesIn textSample hd _ _ (.inr h)⟩

end Context
end SceneFormula
