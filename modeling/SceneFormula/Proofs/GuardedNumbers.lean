import SceneFormula.Proofs.CallPlaces
import SceneFormula.Proofs.GuardedBinding
import SceneFormula.Proofs.Progress
import SceneFormula.Proofs.TokenIndices

/-! Numeric texts, compiled by offsets. Every part that is copied is a slice, every stretch leads on
in the text, and no operation fails on the way. -/
namespace SceneFormula
open Source (Argument ArgumentList ByteList indexOf? isBroken isBroken? listAt? listOpening?
  separators slice? width)
open Arithmetic (Program isReserved)

def Source.ByteList.given (list : ByteList) : List Argument :=
  match list.arguments.getLast? with
  | none => []
  | some last =>
    if last.text.all (· == ' ') then list.arguments.dropLast else list.arguments

theorem Source.ByteList.given_eq (list : ArgumentList) (close : Option Nat) (stop : Nat) :
    given ⟨list.arguments, close, stop⟩ = list.given := by
  rw [given, ArgumentList.given]
  cases hl : list.arguments.getLast? with
  | none => exact absurd (List.getLast?_eq_none_iff.mp hl) (List.cons_ne_nil _ _)
  | some last => rw [Option.getD_some]

/-- A list that opens for the characters opens for the bytes, and is the same list. -/
theorem Source.listAt?_eq {front tail : List Char} {list : ArgumentList}
    (h : ArgumentList.open? (width front) tail = some list) :
    ∃ opening, listOpening? (front ++ tail) (width front) = some opening ∧
      listAt? (front ++ tail) (opening + 1) = some ⟨list.arguments, list.close, list.stop⟩ := by
  obtain ⟨spaces, inside, rfl, rfl⟩ := ArgumentList.open?_eq_some_iff.mp h
  refine ⟨width front + spaces, Source.listOpening?_append front spaces inside, ?_⟩
  have hstart : width front + spaces + 1 =
      width (front ++ (List.replicate spaces ' ' ++ ['('])) := by
    have hopening : '('.utf8Size = 1 := rfl
    simp only [Source.width_append, Source.width_cons, Source.width_nil,
      ArgumentList.width_spaces, hopening]
    rfl
  have hlist := Source.listAt?_append (front ++ (List.replicate spaces ' ' ++ ['('])) inside
  rw [← hstart] at hlist
  simpa using hlist

/-- Where less is left to read, reading goes on behind its start, and in the text. -/
theorem Source.leads_on (front : List Char) {text used rest : List Char} (ht : text = used ++ rest)
    (hr : rest.length < text.length) :
    width front < width (front ++ used) ∧ width (front ++ used) ≤ width (front ++ text) := by
  rw [ht, List.length_append] at hr
  have hpos : 0 < width used := by
    rw [Nat.pos_iff_ne_zero]
    rintro hzero
    rw [Source.eq_nil_of_width hzero, List.length_nil] at hr
    omega
  rw [ht]
  simp only [Source.width_append]
  omega

namespace NumericCall

def ofPlace (context : Context) (compilers : GuardedCompilers) (text : List Char) (target : Target)
    (nameEnd : Nat) : Guarded Fault (NumericCall × Nat) :=
  match listOpening? text nameEnd with
  | none => throw (.missingParameterParentheses nameEnd)
  | some opening => do
    let list ← listAt? text (opening + 1)
    let receivers := target.receivers.map (Expression.ofRaw context.world)
    let parameters ← addAllGuarded context compilers target.declarations receivers list.given
    match list.close with
    | none => throw (.unterminatedParentheses (list.stop - 1))
    | some close =>
      let atLeast := mandatoryCount target.declarations
      let atMost := target.declarations.length
      if atLeast ≤ parameters.length ∧ parameters.length ≤ atMost then
        pure (⟨target.routine, parameters⟩, close)
      else throw (.wrongParameterCount nameEnd atLeast atMost parameters.length)

end NumericCall

/-- A stretch of a numeric text told by offsets: what is copied, the call that follows, and where
the text goes on. -/
structure ByteStretch where
  copied : List Char
  call : Option NumericCall
  next : Nat

namespace ByteStretch

def ofStretch (stretch : Stretch) : ByteStretch :=
  ⟨stretch.copied, stretch.call, stretch.next⟩

def ofPlace (context : Context) (compilers : GuardedCompilers) (text : List Char) (position : Nat)
    (place : CallPlace) : Guarded Fault ByteStretch := do
  let name := if place.functionEnd.isSome then place.function else ""
  let nameEnd ← place.functionEnd.or (width text).ppred
  if ← isBroken? separators name.toList then
    let copied ← slice? text position (place.mark + 1)
    pure ⟨copied, none, place.mark + 1⟩
  else
    match if isReserved name then none
      else context.world.resolve .number place.receiver? name with
    | none =>
      let copied ← slice? text position (nameEnd + 1)
      pure ⟨copied, none, nameEnd + 1⟩
    | some target =>
      let (call, close) ← NumericCall.ofPlace context compilers text target nameEnd
      let copied ← slice? text position place.start
      pure ⟨copied, some call, close + 1⟩

def readAt (context : Context) (compilers : GuardedCompilers) (text : List Char) (position : Nat) :
    Guarded Fault (Option ByteStretch) := do
  match ← CallPlace.ofMarks? text separators position (indexOf? text '.' position)
      (indexOf? text '(' position) with
  | none => pure none
  | some place => some <$> ofPlace context compilers text position place

end ByteStretch

namespace NumericForm

/-- Copies a text from an offset on, and replaces its calls, behind those that were made. Every
stretch must lead on and end in the text. -/
def scan (context : Context) (compilers : GuardedCompilers) (text : List Char) (position : Nat)
    (calls : List NumericCall) (copied : List Char) :
    Guarded Fault (List NumericCall × List Char) := do
  match ← ByteStretch.readAt context compilers text position with
  | none =>
    let last ← slice? text position (width text)
    pure (calls, copied ++ last)
  | some stretch =>
    if _h : position < stretch.next ∧ stretch.next ≤ width text then
      match stretch.call with
      | none => scan context compilers text stretch.next calls (copied ++ stretch.copied)
      | some call =>
        scan context compilers text stretch.next (calls ++ [call])
          (copied ++ stretch.copied ++ (variableName (calls.length + 1)).toList)
    else liftM (none : Option (List NumericCall × List Char))
termination_by width text - position

def compileGuarded (context : Context) (compilers : GuardedCompilers) (raw : String) :
    Guarded Fault NumericForm := do
  let text := raw.toList
  let (calls, arithmetic) ← scan context (compilers.below (width text)) text 0 [] []
  let program ← Program.readGuarded (String.ofList arithmetic) (variableNames calls.length)
    context.options.maxDepth.toNat
  pure ⟨calls, program.optimize⟩

end NumericForm

section Agreement
variable {context : Context} {guarded : GuardedCompilers} {compilers : Compilers}

theorem NumericCall.ofPlace_eq {bound : Nat} (hg : guarded.Safe bound compilers)
    {front tail : List Char} (hw : Source.ArgumentsBelow bound tail) (target : Target) :
    ofPlace context guarded (front ++ tail) target (width front) =
      .of (match ArgumentList.open? (width front) tail with
        | none => .error (.missingParameterParentheses (width front))
        | some list =>
          match ofList context compilers target (width front) list with
          | .error fault => .error fault
          | .ok (call, _) => .ok (call, list.stop)) := by
  rw [ofPlace]
  cases ho : ArgumentList.open? (width front) tail with
  | none =>
    rw [Source.listOpening?_eq_none front ho]
    rfl
  | some list =>
    obtain ⟨opening, hopening, hlist⟩ := Source.listAt?_eq ho
    have hgiven : ∀ argument ∈ list.given, width argument.text < bound :=
      fun argument ha => hw.of_open? ho (list.given_subset ha)
    rw [hopening]
    simp only [hlist, Guarded.liftM_some_bind, Source.ByteList.given_eq,
      addAllGuarded_eq hg context _ _ hgiven, ofList, ArgumentList.close]
    cases addAll context compilers target.declarations
      (target.receivers.map (Expression.ofRaw context.world)) list.given with
    | error fault => rfl
    | ok parameters =>
      simp only [Guarded.of_ok_bind]
      cases list.rest with
      | none => rfl
      | some rest =>
        simp only [Option.map_some]
        split <;> rfl

namespace ByteStretch
variable (front : List Char) {rest : List Char} {callee : Callee}

/-- A name that runs to the end of the text stands behind a dot. -/
private theorem exists_member_of_tail (hs : callee.Splits rest) (ht : callee.tail = []) :
    ∃ member, callee.member = some member ∧ rest = callee.lead ++ callee.name ++ '.' :: member := by
  cases hm : callee.member with
  | none =>
    obtain ⟨after, hafter⟩ := hs.bare hm
    rw [ht] at hafter
    cases hafter
  | some member => exact ⟨member, rfl, by simp [← hs.text, ht, Callee.written, hm]⟩

/-- Such a name ends behind the text before its last byte, so that there is one. -/
private theorem pred_width (hs : callee.Splits rest) (ht : callee.tail = []) :
    (width (front ++ rest)).ppred = some (Stretch.nameEnd (width front) callee) ∧
      Stretch.nameEnd (width front) callee + 1 = width (front ++ rest) := by
  obtain ⟨member, hm, hrest⟩ := exists_member_of_tail hs ht
  have hdot : '.'.utf8Size = 1 := rfl
  have hend : Stretch.nameEnd (width front) callee + 1 = width (front ++ rest) := by
    rw [Stretch.nameEnd, if_pos ht, hrest, Callee.written, hm]
    simp only [Option.map_some, Option.getD_some, Source.width_append, Source.width_cons, hdot]
    omega
  exact ⟨by rw [← hend]; rfl, hend⟩

private theorem nameEnd_eq (hs : callee.Splits rest) :
    (CallPlace.ofCallee (width front) callee).functionEnd.or (width (front ++ rest)).ppred =
      some (Stretch.nameEnd (width front) callee) := by
  rw [CallPlace.ofCallee]
  by_cases ht : callee.tail = []
  · rw [if_pos ht, (pred_width front hs ht).1, Option.none_or]
  · rw [if_neg ht, Stretch.nameEnd, if_neg ht, Option.some_or]

private theorem slice_throughDot (hs : callee.Splits rest) {member : List Char}
    (hm : callee.member = some member) :
    (CallPlace.ofCallee (width front) callee).mark + 1 =
        (Stretch.throughDot (width front) callee).next ∧
      slice? (front ++ rest) (width front) (Stretch.throughDot (width front) callee).next =
        some (Stretch.throughDot (width front) callee).copied := by
  have hdot : '.'.utf8Size = 1 := rfl
  refine ⟨?_, @Source.slice?_eq _ front _ (member ++ callee.tail) _ _ ?_ rfl ?_⟩
  · simp [CallPlace.ofCallee, Stretch.throughDot, hdot, Nat.add_assoc]
  · simp [← hs.text, Stretch.throughDot, Callee.written, hm]
  · exact (Source.width_append front _).symm

/-- The character behind the name of a function has one byte. -/
private theorem size_of_tail (hs : callee.Splits rest) {c : Char} {more : List Char}
    (ht : callee.tail = c :: more) : c.utf8Size = 1 := by
  have hends : Callee.endsMember c = true := by
    cases hm : callee.member with
    | none =>
      obtain ⟨after, hafter⟩ := hs.bare hm
      obtain ⟨rfl, -⟩ := List.cons.inj (ht.symm.trans hafter)
      rfl
    | some member => exact (hs.member member hm).2 c (by rw [ht]; rfl)
  simp only [Callee.endsMember, Bool.or_eq_true, beq_iff_eq] at hends
  rcases hends with rfl | rfl <;> rfl

private theorem slice_throughName (hs : callee.Splits rest) :
    Stretch.nameEnd (width front) callee + 1 = (Stretch.throughName (width front) callee).next ∧
      slice? (front ++ rest) (width front) (Stretch.throughName (width front) callee).next =
        some (Stretch.throughName (width front) callee).copied := by
  have hstop : Stretch.nameEnd (width front) callee + 1 =
      width (front ++ (Stretch.throughName (width front) callee).copied) := by
    cases ht : callee.tail with
    | nil => rw [(pred_width front hs ht).2, ← hs.text, Stretch.throughName, ht, List.take_nil]
    | cons c more =>
      rw [Stretch.nameEnd_eq (by rw [ht]; exact List.cons_ne_nil c more), Stretch.throughName, ht]
      simp [size_of_tail hs ht, Nat.add_assoc]
  refine ⟨hstop.trans (Source.width_append front _),
    @Source.slice?_eq _ front _ (callee.tail.drop 1) _ _ ?_ rfl (Source.width_append front _).symm⟩
  rw [Stretch.throughName, List.append_assoc, List.append_assoc _ (callee.tail.take 1),
    List.take_append_drop, hs.text]

private theorem slice_lead (hs : callee.Splits rest) :
    slice? (front ++ rest) (width front) (CallPlace.ofCallee (width front) callee).start =
      some callee.lead := by
  refine @Source.slice?_eq _ front callee.lead (callee.written ++ callee.tail) _ _ ?_ rfl ?_
  · rw [← hs.text]
    simp
  · exact (Source.width_append front callee.lead).symm

/-- No list opens at the last byte of a name that runs to the end of the text. -/
private theorem listOpening?_nameEnd (hs : callee.Splits rest) (ht : callee.tail = []) :
    listOpening? (front ++ rest) (Stretch.nameEnd (width front) callee) = none := by
  obtain ⟨member, hm, hrest⟩ := exists_member_of_tail hs ht
  obtain ⟨init, c, hlast, hc⟩ : ∃ init c, front ++ rest = init ++ [c] ∧ c ∈ '.' :: member := by
    rcases List.eq_nil_or_concat ('.' :: member) with hnil | ⟨init, c, hlast⟩
    · cases hnil
    · refine ⟨front ++ callee.lead ++ callee.name ++ init, c, ?_, by rw [hlast]; simp⟩
      rw [hrest, hlast]
      simp
  have hplain : Callee.endsMember c = false := by
    rcases List.mem_cons.mp hc with rfl | hc
    · rfl
    · exact (hs.member member hm).1 c hc
  have hend : Stretch.nameEnd (width front) callee = width (init ++ [c]) - 1 := by
    rw [← hlast, ← (pred_width front hs ht).2, Nat.add_sub_cancel]
  rw [hend, hlast]
  refine Source.listOpening?_last init ?_ ?_
  · rintro rfl
    cases hplain
  · rintro rfl
    cases hplain

/-- The list of a call opens behind the name of its function, and nowhere else. -/
private theorem made_eq (hg : guarded.Safe (width (front ++ rest)) compilers)
    (hs : callee.Splits rest) (target : Target) :
    NumericCall.ofPlace context guarded (front ++ rest) target
        (Stretch.nameEnd (width front) callee) =
      .of (match ArgumentList.open? (Stretch.nameEnd (width front) callee) callee.tail with
        | none => .error (.missingParameterParentheses (Stretch.nameEnd (width front) callee))
        | some list =>
          match NumericCall.ofList context compilers target (Stretch.nameEnd (width front) callee)
            list with
          | .error fault => .error fault
          | .ok (call, _) => .ok (call, list.stop)) := by
  have htext : front ++ rest = front ++ (callee.lead ++ callee.written) ++ callee.tail := by
    rw [← hs.text, List.append_assoc front]
  by_cases ht : callee.tail = []
  · have hnone := listOpening?_nameEnd front hs ht
    rw [NumericCall.ofPlace, hnone, ht]
    rfl
  · have hw : Source.ArgumentsBelow (width (front ++ rest)) callee.tail := by
      rw [htext]
      exact (Source.argumentsBelow_width _).of_append
    rw [Stretch.nameEnd_eq ht, ← NumericCall.ofPlace_eq hg hw, ← htext]

theorem ofPlace_eq (hg : guarded.Safe (width (front ++ rest)) compilers)
    (hn : Callee.next? rest = some callee) :
    ofPlace context guarded (front ++ rest) (width front)
        (CallPlace.ofCallee (width front) callee) =
      .of ((Stretch.read context compilers (width front) rest).map ofStretch) := by
  have hs := Callee.next?_eq_some_iff.mp hn
  have hname : (if (CallPlace.ofCallee (width front) callee).functionEnd.isSome then
      (CallPlace.ofCallee (width front) callee).function else "") =
      String.ofList (Stretch.functionName callee) := by
    rw [CallPlace.ofCallee, Stretch.functionName]
    cases callee.tail <;> rfl
  unfold ofPlace Stretch.read
  rw [hn]
  simp only [hname, nameEnd_eq front hs, Source.isBroken?_eq, String.toList_ofList,
    Guarded.liftM_some_bind]
  cases hb : isBroken separators (Stretch.functionName callee) with
  | true =>
    obtain ⟨-, member, hm, -⟩ := hs.exists_member hb
    obtain ⟨hnext, hslice⟩ := slice_throughDot front hs hm
    simp only [if_true, hnext, hslice, Guarded.liftM_some_bind]
    rfl
  | false =>
    simp only [Bool.false_eq_true, if_false, CallPlace.receiver?_ofCallee]
    change (match Stretch.target? context.world callee with
      | none => _
      | some target => _) = _
    cases ht : Stretch.target? context.world callee with
    | none =>
      obtain ⟨hnext, hslice⟩ := slice_throughName front hs
      simp only [hnext, hslice, Guarded.liftM_some_bind]
      rfl
    | some target =>
      simp only [made_eq front hg hs, Stretch.ofTarget, slice_lead front hs]
      cases ArgumentList.open? (Stretch.nameEnd (width front) callee) callee.tail with
      | none => rfl
      | some list =>
        dsimp only
        cases NumericCall.ofList context compilers target (Stretch.nameEnd (width front) callee)
          list <;> rfl

theorem readAt_eq (hg : guarded.Safe (width (front ++ rest)) compilers) :
    readAt context guarded (front ++ rest) (width front) =
      .of (match Callee.next? rest with
        | none => .ok none
        | some _ =>
          (Stretch.read context compilers (width front) rest).map fun stretch =>
            some (ofStretch stretch)) := by
  rw [readAt, CallPlace.ofMarks?_eq, Guarded.liftM_some_bind]
  cases hn : Callee.next? rest with
  | none => rfl
  | some callee =>
    simp only [Option.map_some, ofPlace_eq front hg hn]
    cases Stretch.read context compilers (width front) rest <;> rfl

end ByteStretch

namespace NumericForm

theorem scan_eq {text front rest : List Char} (hg : guarded.Safe (width text) compilers)
    (ht : text = front ++ rest) (calls : List NumericCall) (copied : List Char) :
    scan context guarded text (width front) calls copied =
      .of (match Stretch.readAll context compilers (width front) rest with
        | .error fault => .error fault
        | .ok stretches =>
          .ok (calls ++ stretches.filterMap (·.call),
            copied ++ Stretch.arithmetic calls.length stretches)) := by
  subst ht
  rw [scan, ByteStretch.readAt_eq front hg]
  cases hn : Callee.next? rest with
  | none =>
    have hlast : slice? (front ++ rest) (width front) (width (front ++ rest)) = some rest :=
      @Source.slice?_eq _ front rest [] _ _ (by rw [List.append_nil]) rfl rfl
    simp only [Guarded.of_ok_bind, hlast, Guarded.liftM_some_bind]
    by_cases hne : rest = []
    · rw [Stretch.readAll, dif_pos hne, hne]
      simp [Stretch.arithmetic, Guarded.pure_eq]
    · have hend : Stretch.readAll context compilers (width front + width rest) [] = .ok [] := by
        rw [Stretch.readAll, dif_pos rfl]
      rw [Stretch.readAll_eq hne, Stretch.read, hn]
      simp [hend, Stretch.arithmetic, Guarded.pure_eq]
  | some callee =>
    have hne : rest ≠ [] := by
      rintro rfl
      cases hn
    rw [Stretch.readAll_eq hne]
    cases hr : Stretch.read context compilers (width front) rest with
    | error fault => rfl
    | ok stretch =>
      obtain ⟨used, hused, hnext⟩ := Stretch.exists_used_of_read hr
      have hshort := Stretch.read_length hr hne
      have hlead := hnext ▸ Source.leads_on front hused hshort
      have hothers := @scan_eq (front ++ rest) (front ++ used) stretch.rest hg
        (by rw [List.append_assoc, ← hused])
      rw [← hnext] at hothers
      simp only [Except.map, Guarded.of_ok_bind, ByteStretch.ofStretch, dif_pos hlead, hothers]
      cases Stretch.readAll context compilers stretch.next stretch.rest with
      | error fault => cases stretch.call <;> rfl
      | ok others =>
        obtain ⟨part, call, next, behind⟩ := stretch
        cases call <;> simp [Stretch.arithmetic]
termination_by rest.length

/-- No operation fails in a numeric text, if none does in shorter ones. -/
theorem compileGuarded_eq {raw : String} (hg : guarded.Safe (width raw.toList) compilers) :
    compileGuarded context guarded raw = .of (compileWith context compilers raw) := by
  have hscan : scan context (guarded.below (width raw.toList)) raw.toList 0 [] [] = _ :=
    scan_eq hg.below (List.nil_append raw.toList).symm [] []
  unfold compileGuarded compileWith
  simp only [hscan, Program.readGuarded_eq]
  rw [Source.width_nil]
  cases Stretch.readAll context compilers 0 raw.toList with
  | error fault => rfl
  | ok stretches =>
    simp only [Guarded.of_ok_bind, List.nil_append, List.length_nil]
    cases Program.parse (String.ofList (Stretch.arithmetic 0 stretches))
      (variableNames (stretches.filterMap (·.call)).length) context.options.maxDepth.toNat <;> rfl

end NumericForm
end Agreement
end SceneFormula
