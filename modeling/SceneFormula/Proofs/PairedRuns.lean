import SceneFormula.Proofs.Mentions
import SceneFormula.Proofs.Pairings
import SceneFormula.Proofs.Progress

/-! Two runs over one text. If the worlds say the same about what the text mentions, and the
compilers answer beside each other for all that the text hands to them, then so do the two runs. -/
namespace SceneFormula
open Arithmetic (Program)
open Source (Argument ArgumentList width)

structure Compilers.Paired (pairing : Pairing) (gauges : Gauges) (compilers others : Compilers)
    (raw : String) : Prop where
  number : SceneFormula.Paired pairing gauges.number (compilers.number raw) (others.number raw)
  text : SceneFormula.Paired pairing gauges.text (compilers.text raw) (others.text raw)

/-- A text of which both runs make the same expression, for compilers that answer it beside each
other. -/
structure Pairing.Hands (pairing : Pairing) (gauges : Gauges) (one other : Context)
    (compilers others : Compilers) (raw : String) : Prop where
  ofRaw_eq : Expression.ofRaw one.world raw = Expression.ofRaw other.world raw
  paired : compilers.Paired pairing gauges others raw

/-- Two runs over a numeric text, which hands the arguments of its calls to the compilers. -/
structure Pairing.Runs (pairing : Pairing) (gauges : Gauges) (text : List Char)
    (one other : Context) (compilers others : Compilers) : Prop where
  world : one.world.AgreeOn text other.world
  surplus : pairing.Surplus one.options other.options
  argument {tail : List Char} {offset : Nat} {list : ArgumentList} (ht : tail <:+ text)
    (ho : ArgumentList.open? offset tail = some list) : ∀ argument ∈ list.arguments,
      compilers.Paired pairing gauges others (String.ofList argument.text)

/-- Two runs over a text of parts, which hands to the compilers the receivers of its calls too, and
as numbers the calls that mean no text function. -/
structure Pairing.TextRuns (pairing : Pairing) (gauges : Gauges) (text : List Char)
    (one other : Context) (compilers others : Compilers) : Prop
    extends pairing.Runs gauges text one other compilers others where
  receiver {rest : List Char} {callee : Callee} {target : Target} (ht : rest <:+ text)
    (hn : Callee.next? rest = some callee)
    (hr : other.world.resolve .text callee.receiver? (String.ofList callee.function) =
      some target) : ∀ receiver ∈ target.receivers,
        compilers.Paired pairing gauges others receiver
  number {rest behind : List Char} {callee : Callee} {offset : Nat} {list : ArgumentList}
    (ht : rest <:+ text) (hn : Callee.next? rest = some callee)
    (ho : ArgumentList.open? offset callee.tail = some list) (hr : list.rest = some behind) :
    ∀ raw, raw.toList = callee.written ++ callee.tail.take (callee.tail.length - behind.length) →
      Paired pairing gauges.number (compilers.number raw) (others.number raw)

theorem mentions_functionName {text : List Char} {callee : Callee}
    (hn : Callee.next? text = some callee) :
    Mentions text (String.ofList (Stretch.functionName callee)).toList := by
  unfold Stretch.functionName
  split
  · exact .of_part List.nil_infix
  · exact Callee.mentions_function hn

theorem Expression.ofRaw_eq {text : List Char} {one other : World} (h : one.AgreeOn text other)
    {raw : String} (hm : Mentions text raw.toList) : ofRaw one raw = ofRaw other raw := by
  rw [ofRaw, ofRaw, h.identifier? hm]

/-- A parameter is added if it can be prepared as declared. A surplus one is added as it is, or
refused. -/
theorem NumericCall.addAll_cons (context : Context) (compilers : Compilers)
    (declarations : List Declaration) (parameters : List Expression) (written : Argument)
    (rest : List Argument) :
    addAll context compilers declarations parameters (written :: rest) =
      match declarations[parameters.length]? with
      | some declaration =>
        match Expression.outcome
            ((Expression.ofRaw context.world (String.ofList written.text)).bindTo compilers
              context.options declaration written.start) with
        | .error fault => .error fault
        | .ok parameter =>
          addAll context compilers declarations (parameters ++ [parameter]) rest
      | none =>
        if context.options.diagnostics then .error (.tooManyParameters written.start)
        else addAll context compilers declarations
          (parameters ++ [.ofRaw context.world (String.ofList written.text)]) rest := by
  rw [addAll, addParameter]
  cases declarations[parameters.length]? with
  | none => cases context.options.diagnostics <;> rfl
  | some declaration =>
    dsimp only
    rcases Expression.bindTo compilers context.options declaration written.start _ with
      ⟨_ | fault, parameter⟩ <;> rfl

theorem TextTerm.bindAll_cons (compilers : Compilers) (options : Options)
    (declaration : Declaration) (declarations : List Declaration) (parameter : Expression)
    (base : Nat) (rest : List (Expression × Nat)) :
    bindAll compilers options (declaration :: declarations) ((parameter, base) :: rest) =
      match Expression.outcome (parameter.bindTo compilers options declaration base) with
      | .error fault => .error fault
      | .ok parameter =>
        match bindAll compilers options declarations rest with
        | .error fault => .error fault
        | .ok others => .ok (parameter :: others) := by
  rw [bindAll]
  rcases parameter.bindTo compilers options declaration base with ⟨_ | fault, bound⟩ <;> rfl

section Runs
variable {pairing : Pairing} {gauges : Gauges} {text : List Char} {one other : Context}
  {compilers others : Compilers}

/-- Places of later parameters do not count if an earlier one goes over the limit. -/
private theorem findSome?_of_prefix {parameters added : List Expression} {excess : Excess}
    (h : parameters.findSome? (·.excess? gauges) = some excess) (hp : parameters <+: added) :
    added.findSome? (·.excess? gauges) = some excess := by
  obtain ⟨others, rfl⟩ := hp
  rw [List.findSome?_append, h]
  rfl

private theorem bindTo_paired (options more : Options) (declaration : Declaration) (base : Nat)
    (world : World) {raw : String} (h : compilers.Paired pairing gauges others raw) :
    Paired pairing (·.excess? gauges)
      (Expression.outcome
        ((Expression.ofRaw world raw).bindTo compilers options declaration base))
      (Expression.outcome
        ((Expression.ofRaw world raw).bindTo others more declaration base)) := by
  unfold Expression.bindTo
  cases declaration.kind.treatment with
  | number =>
    have hn := h.number
    simp only [Expression.prepareNumberWith, Expression.ofRaw]
    generalize compilers.number raw = found, others.number raw = wider at hn
    apply hn.movedBy base
    case hnext | hbehind => exact fun _ => rfl
    case hvalue => exact fun _ => ⟨_, rfl, rfl, rfl⟩
  | text =>
    have ht := h.text
    simp only [Expression.prepareTextWith, Expression.ofRaw]
    generalize compilers.text raw = found, others.text raw = wider at ht
    apply ht.movedBy base
    case hnext | hbehind => exact fun _ => rfl
    case hvalue => exact fun _ => ⟨_, rfl, rfl, rfl⟩
  | verbatim => exact .kept rfl

namespace NumericCall

theorem prefix_of_addAll {context : Context} {declarations : List Declaration}
    {parameters added : List Expression} {arguments : List Argument}
    (h : addAll context compilers declarations parameters arguments = .ok added) :
    parameters <+: added := by
  induction arguments generalizing parameters with
  | nil =>
    obtain rfl := Except.ok.inj h
    exact List.prefix_rfl
  | cons written rest ih =>
    rw [addAll] at h
    split at h
    · cases h
    · rename_i more hm
      have hmore : ∃ parameter, more = parameters ++ [parameter] := by
        unfold addParameter at hm
        split at hm <;> exact ⟨_, (congrArg Prod.snd hm).symm⟩
      obtain ⟨parameter, rfl⟩ := hmore
      exact (List.prefix_append _ _).trans (ih h)

/-- Where faults are not kept, surplus parameters are added as they are. -/
private theorem addAll_surplus (hd : one.options.diagnostics = false)
    (declarations : List Declaration) (arguments : List Argument) {parameters : List Expression}
    (h : declarations.length ≤ parameters.length) :
    ∃ all, addAll one compilers declarations parameters arguments = .ok all ∧
      parameters.length ≤ all.length := by
  induction arguments generalizing parameters with
  | nil => exact ⟨parameters, rfl, Nat.le_refl _⟩
  | cons written rest ih =>
    obtain ⟨all, ha, hl⟩ := @ih (parameters ++ [.ofRaw one.world (String.ofList written.text)])
      (by rw [List.length_append]; omega)
    rw [List.length_append] at hl
    refine ⟨all, ?_, by omega⟩
    rw [addAll_cons, List.getElem?_eq_none h, hd]
    exact ha

/-- Parameters are added alike, unless only the second run tells a surplus one. The first run has
more parameters than declared then. -/
private theorem addAll_paired (hs : pairing.Surplus one.options other.options)
    (declarations : List Declaration) {parameters : List Expression}
    (hp : parameters.findSome? (·.excess? gauges) = none) {arguments : List Argument}
    (ha : ∀ argument ∈ arguments,
      pairing.Hands gauges one other compilers others (String.ofList argument.text)) :
    Paired pairing (fun added : List Expression => added.findSome? (·.excess? gauges))
        (addAll one compilers declarations parameters arguments)
        (addAll other others declarations parameters arguments) ∨
      pairing.TellsLate ∧
        ∃ all surplus, addAll one compilers declarations parameters arguments = .ok all ∧
          declarations.length < all.length ∧
          addAll other others declarations parameters arguments =
            .error (.tooManyParameters surplus) := by
  induction arguments generalizing parameters with
  | nil => exact .inl (.kept hp)
  | cons written rest ih =>
    obtain ⟨hwritten, hrest⟩ := List.forall_mem_cons.mp ha
    have hnext {parameter : Expression} (h : parameter.excess? gauges = none) :
        (parameters ++ [parameter]).findSome? (·.excess? gauges) = none := by
      simp [List.findSome?_append, hp, h]
    rw [addAll_cons, addAll_cons, hwritten.ofRaw_eq]
    cases hd : declarations[parameters.length]? with
    | some declaration =>
      have hone := bindTo_paired one.options other.options declaration written.start other.world
        hwritten.paired
      dsimp only
      generalize Expression.outcome (Expression.bindTo compilers _ _ _ _) = found,
        Expression.outcome (Expression.bindTo others _ _ _ _) = wider at hone
      cases hone with
      | kept h => exact ih (hnext h) hrest
      | loose parameter h => exact .inl (.of_meets (fun _ => pairing.meets_of_none h _ _) _)
      | refused h => exact .inl (.refused h)
      | @broken parameter excess fault h hs =>
        have hsome : (parameters ++ [parameter]).findSome? (·.excess? gauges) = some excess := by
          simp [List.findSome?_append, hp, h]
        exact .inl (.of_shows hs fun added ha => findSome?_of_prefix hsome (prefix_of_addAll ha))
    | none =>
      have hlength := List.getElem?_eq_none_iff.mp hd
      have hrest := ih (hnext (Expression.excess?_ofRaw gauges other.world
        (String.ofList written.text))) hrest
      dsimp only
      cases hs with
      | same h hm =>
        rw [h]
        split
        · exact .inl (.refused (hm _))
        · exact hrest
      | untold h ho hl =>
        -- The first run goes on to the end of the list, and prepares none of what is left.
        obtain ⟨all, hall, hle⟩ := @addAll_surplus one compilers h declarations rest
          (parameters ++ [.ofRaw other.world (String.ofList written.text)])
          (by rw [List.length_append]; omega)
        rw [List.length_append, List.length_singleton] at hle
        rw [h, ho]
        exact .inr ⟨hl, all, written.start, hall, by omega, rfl⟩

/-- Surplus parameters that were not told are too many for the call, if its list is closed. -/
private theorem ofList_paired (h : pairing.Runs gauges text one other compilers others)
    {target : Target} (nameEnd : Nat) {list : ArgumentList}
    (hr : ∀ receiver ∈ target.receivers,
      Expression.ofRaw one.world receiver = Expression.ofRaw other.world receiver)
    (ha : ∀ argument ∈ list.given,
      pairing.Hands gauges one other compilers others (String.ofList argument.text)) :
    Paired pairing (fun made : NumericCall × List Char => made.1.excess? gauges)
      (ofList one compilers target nameEnd list) (ofList other others target nameEnd list) := by
  have hreceivers : (target.receivers.map (Expression.ofRaw other.world)).findSome?
      (·.excess? gauges) = none := by
    rw [List.findSome?_eq_none_iff]
    intro receiver hr
    obtain ⟨raw, -, rfl⟩ := List.mem_map.mp hr
    rfl
  simp only [ofList]
  rw [List.map_congr_left hr]
  rcases addAll_paired h.surplus target.declarations hreceivers ha with
    h | ⟨hl, all, surplus, hall, hlength, hother⟩
  · generalize addAll one _ _ _ _ = found, addAll other _ _ _ _ = wider at h
    apply h.andThen
    case hnext | hbehind => exact fun _ => rfl
    case hkept =>
      intro parameters _ hp
      dsimp only
      split
      · exact .own rfl rfl
      · split
        · exact .kept hp
        · exact .own rfl rfl
    case hbroken =>
      intro parameters excess made hp hm
      dsimp only at hm
      split at hm
      · cases hm
      · split at hm
        · obtain rfl := Except.ok.inj hm
          exact hp
        · cases hm
  · -- What the second run told at once is found by the first one behind the list.
    rw [hall, hother]
    dsimp only
    split
    · exact .refused (hl.unclosed _ _)
    · rw [if_neg (by omega)]
      exact .refused (hl.count _ _ _ _ _)

end NumericCall

namespace Pairing.Runs

theorem of_suffix (h : pairing.Runs gauges text one other compilers others) {rest : List Char}
    (hr : rest <:+ text) : pairing.Runs gauges rest one other compilers others where
  world := h.world.of_mentions (.of_part hr.isInfix)
  surplus := h.surplus
  argument ht := h.argument (ht.trans hr)

/-- The arguments of a call are mentioned by the text and handed to the compilers. -/
private theorem handed (h : pairing.Runs gauges text one other compilers others) {callee : Callee}
    (hn : Callee.next? text = some callee) {offset : Nat} {list : ArgumentList}
    (ho : ArgumentList.open? offset callee.tail = some list) :
    ∀ argument ∈ list.arguments,
      pairing.Hands gauges one other compilers others (String.ofList argument.text) := by
  intro argument ha
  have htail := Callee.tail_suffix hn
  have hm := (Mentions.of_part htail.isInfix).trans (mentions_argument ho argument ha)
  exact ⟨Expression.ofRaw_eq h.world hm, h.argument htail ho argument ha⟩

private theorem target?_eq (h : pairing.Runs gauges text one other compilers others)
    {callee : Callee} (hn : Callee.next? text = some callee) :
    Stretch.target? one.world callee = Stretch.target? other.world callee := by
  simp only [Stretch.target?, h.world.resolve_eq .number (Callee.mentions_receiver hn)
    (mentions_functionName hn)]

end Pairing.Runs

/-- Compilers that answer every text beside each other. -/
theorem Pairing.TextRuns.of_all (one other : Context) (hw : one.world = other.world)
    (hs : pairing.Surplus one.options other.options)
    (hc : ∀ raw, compilers.Paired pairing gauges others raw) (text : List Char) :
    pairing.TextRuns gauges text one other compilers others where
  world := hw ▸ .refl text _
  surplus := hs
  argument _ _ _ _ := hc _
  receiver _ _ _ _ _ := hc _
  number _ _ _ _ _ _ := (hc _).number

theorem Pairing.TextRuns.of_suffix (h : pairing.TextRuns gauges text one other compilers others)
    {rest : List Char} (hr : rest <:+ text) :
    pairing.TextRuns gauges rest one other compilers others where
  toRuns := h.toRuns.of_suffix hr
  receiver ht := h.receiver (ht.trans hr)
  number ht := h.number (ht.trans hr)

namespace Stretch

private theorem read_paired (h : pairing.Runs gauges text one other compilers others)
    (offset : Nat) :
    Paired pairing (fun stretch : Stretch => stretch.call.bind (·.excess? gauges))
      (read one compilers offset text) (read other others offset text) := by
  unfold read
  cases hn : Callee.next? text with
  | none => exact .kept rfl
  | some callee =>
    simp only [h.target?_eq hn]
    split
    · exact .kept rfl
    · cases ht : target? other.world callee with
      | none => exact .kept rfl
      | some target =>
        have hreceivers : ∀ receiver ∈ target.receivers, Expression.ofRaw one.world receiver =
            Expression.ofRaw other.world receiver := by
          intro receiver hr
          simp only [target?] at ht
          split at ht
          · cases ht
          · exact Expression.ofRaw_eq h.world (World.mentions_receiver ht
              (Callee.mentions_receiver hn) (mentions_functionName hn) receiver hr)
        simp only [ofTarget]
        cases ho : ArgumentList.open? (nameEnd offset callee) callee.tail with
        | none => exact .own rfl rfl
        | some list =>
          have hmade := NumericCall.ofList_paired h (nameEnd offset callee) hreceivers
            fun argument ha => h.handed hn ho argument (list.given_subset ha)
          dsimp only
          generalize NumericCall.ofList one _ _ _ _ = found,
            NumericCall.ofList other _ _ _ _ = wider at hmade
          apply hmade.map
          case hnext => exact fun _ => rfl
          case hvalue => exact fun _ => ⟨_, rfl, rfl⟩

/-- The calls of a stretch are looked at first. -/
private theorem findSome?_calls_cons (gauges : Gauges) (stretch : Stretch)
    (others : List Stretch) :
    ((stretch :: others).filterMap (·.call)).findSome? (·.excess? gauges) =
      (stretch.call.bind (·.excess? gauges)).or
        ((others.filterMap (·.call)).findSome? (·.excess? gauges)) := by
  cases hcall : stretch.call with
  | none => simp [hcall]
  | some call =>
    simp only [List.filterMap_cons, hcall, List.findSome?_cons, Option.bind_some]
    cases call.excess? gauges <;> rfl

/-- The rest behind a stretch hands nothing new to the compilers. -/
theorem readAll_paired {text : List Char}
    (h : pairing.Runs gauges text one other compilers others) (front : List Char) :
    Paired pairing (fun stretches : List Stretch =>
        (stretches.filterMap (·.call)).findSome? (·.excess? gauges))
      (readAll one compilers (width front) text) (readAll other others (width front) text) := by
  by_cases ht : text = []
  · subst ht
    rw [readAll, readAll]
    exact .kept rfl
  · rw [readAll_eq ht, readAll_eq ht]
    have hfirst := read_paired h (width front)
    generalize hone : read one compilers (width front) text = found,
      read other others (width front) text = wider at hfirst
    apply hfirst.andThen
    case hnext | hbehind => exact fun _ => rfl
    case hkept =>
      rintro stretch rfl hcall
      have hlength := read_length hone ht
      obtain ⟨used, hused, hnext⟩ := exists_used_of_read hone
      have hothers := readAll_paired (h.of_suffix ⟨used, hused.symm⟩) (front ++ used)
      simp only [hnext]
      generalize readAll one _ _ _ = found, readAll other _ _ _ = wider at hothers
      apply hothers.map
      case hnext => exact fun _ => rfl
      case hvalue =>
        exact fun _ => ⟨_, rfl, by rw [findSome?_calls_cons, hcall, Option.none_or]⟩
    case hbroken =>
      intro stretch excess stretches hcall hr
      dsimp only at hr
      split at hr
      · cases hr
      · obtain rfl := Except.ok.inj hr
        rw [findSome?_calls_cons, hcall, Option.some_or]
termination_by text.length

end Stretch

/-- The arithmetic is read behind the parameters of all calls. -/
theorem NumericForm.compileWith_paired {raw : String}
    (h : pairing.Runs gauges raw.toList one other compilers others)
    (place? : Program → Option Excess)
    (hp : ∀ program : Program, place? program.optimize = place? program)
    (hparse : ∀ stretches, Stretch.readAll one compilers 0 raw.toList = .ok stretches →
      Paired pairing place?
        (Program.parse (String.ofList (Stretch.arithmetic 0 stretches))
          (variableNames (stretches.filterMap (·.call)).length) one.options.maxDepth.toNat)
        (Program.parse (String.ofList (Stretch.arithmetic 0 stretches))
          (variableNames (stretches.filterMap (·.call)).length) other.options.maxDepth.toNat)) :
    Paired pairing (fun form : NumericForm =>
        (form.calls.findSome? (·.excess? gauges)).or (place? form.program))
      (compileWith one compilers raw) (compileWith other others raw) := by
  have hread : Paired pairing _ (Stretch.readAll one compilers 0 raw.toList)
      (Stretch.readAll other others 0 raw.toList) := Stretch.readAll_paired h []
  unfold compileWith
  generalize hone : Stretch.readAll one compilers 0 raw.toList = found,
    Stretch.readAll other others 0 raw.toList = wider at hread
  apply hread.andThen
  case hnext | hbehind => exact fun _ => rfl
  case hkept =>
    rintro stretches rfl hcalls
    have hprogram := hparse stretches hone
    dsimp only
    generalize Program.parse _ _ one.options.maxDepth.toNat = found,
      Program.parse _ _ other.options.maxDepth.toNat = wider at hprogram
    apply hprogram.map
    case hnext => exact fun _ => rfl
    case hvalue => exact fun program => ⟨_, rfl, by rw [hcalls, Option.none_or, hp]⟩
  case hbroken =>
    intro stretches excess form hcalls hf
    dsimp only at hf
    split at hf
    · cases hf
    · obtain rfl := Except.ok.inj hf
      rw [hcalls, Option.some_or]

namespace TextTerm

private theorem bindAll_paired (options more : Options) (declarations : List Declaration)
    (world : World) {parameters : List (Expression × Nat)}
    (hp : ∀ parameter ∈ parameters, ∃ raw, parameter.1 = .ofRaw world raw ∧
      compilers.Paired pairing gauges others raw) :
    Paired pairing (fun bound : List Expression => bound.findSome? (·.excess? gauges))
      (bindAll compilers options declarations parameters)
      (bindAll others more declarations parameters) := by
  induction declarations generalizing parameters with
  | nil =>
    refine .kept (List.findSome?_eq_none_iff.mpr fun parameter hm => ?_)
    obtain ⟨written, hw, rfl⟩ := List.mem_map.mp hm
    obtain ⟨raw, hraw, -⟩ := hp written hw
    rw [hraw]
    rfl
  | cons declaration declarations ih =>
    cases parameters with
    | nil => exact .kept rfl
    | cons first rest =>
      obtain ⟨⟨raw, hraw, hpaired⟩, hrest⟩ := List.forall_mem_cons.mp hp
      obtain ⟨parameter, base⟩ := first
      obtain rfl : parameter = .ofRaw world raw := hraw
      rw [bindAll_cons, bindAll_cons]
      have hone := bindTo_paired options more declaration base world hpaired
      generalize Expression.outcome (Expression.bindTo compilers _ _ _ _) = found,
        Expression.outcome (Expression.bindTo others _ _ _ _) = wider at hone
      apply hone.andThen
      case hnext | hbehind => exact fun _ => rfl
      case hkept =>
        intro parameter _ hfirst
        have hothers := ih hrest
        dsimp only
        generalize bindAll compilers _ _ _ = found, bindAll others _ _ _ = wider at hothers
        apply hothers.map
        case hnext => exact fun _ => rfl
        case hvalue => exact fun _ => ⟨_, rfl, by rw [List.findSome?_cons, hfirst]⟩
      case hbroken =>
        intro parameter excess bound hfirst hb
        dsimp only at hb
        split at hb
        · cases hb
        · obtain rfl := Except.ok.inj hb
          rw [List.findSome?_cons, hfirst]

private theorem call_paired {target : Target} (nameStart nameEnd : Nat) {list : ArgumentList}
    (hr : ∀ receiver ∈ target.receivers,
      pairing.Hands gauges one other compilers others receiver)
    (ha : ∀ argument ∈ list.arguments,
      pairing.Hands gauges one other compilers others (String.ofList argument.text)) :
    Paired pairing (TextStep.excess? gauges)
      (call one compilers target nameStart nameEnd list)
      (call other others target nameStart nameEnd list) := by
  have hreceivers : target.receivers.map
        (fun name => (Expression.ofRaw one.world name, nameStart)) =
      target.receivers.map (fun name => (Expression.ofRaw other.world name, nameStart)) :=
    List.map_congr_left fun name hn => by rw [(hr name hn).ofRaw_eq]
  have harguments : list.arguments.map
        (fun written => (Expression.ofRaw one.world (String.ofList written.text), written.start)) =
      list.arguments.map fun written =>
        (Expression.ofRaw other.world (String.ofList written.text), written.start) :=
    List.map_congr_left fun written hw => by rw [(ha written hw).ofRaw_eq]
  have hp : ∀ parameter ∈ target.receivers.map (fun name =>
      (Expression.ofRaw other.world name, nameStart)) ++ list.arguments.map (fun written =>
      (Expression.ofRaw other.world (String.ofList written.text), written.start)),
      ∃ raw, parameter.1 = .ofRaw other.world raw ∧
        compilers.Paired pairing gauges others raw := by
    intro parameter hm
    rcases List.mem_append.mp hm with hm | hm <;> obtain ⟨written, hw, rfl⟩ := List.mem_map.mp hm
    · exact ⟨written, rfl, (hr written hw).paired⟩
    · exact ⟨_, rfl, (ha written hw).paired⟩
  simp only [call, hreceivers, harguments]
  generalize target.receivers.map _ ++ list.arguments.map _ = parameters at hp
  split
  · exact .own rfl rfl
  · have hbound := bindAll_paired one.options other.options target.declarations other.world hp
    generalize bindAll compilers _ _ _ = found, bindAll others _ _ _ = wider at hbound
    apply hbound.map
    case hnext => exact fun _ => rfl
    case hvalue => exact fun _ => ⟨_, rfl, rfl⟩

/-- Whatever is wrong with the number, the function is told as not recognised. -/
private theorem number_paired (name : String) (nameStart : Nat) {written : List Char}
    (hw : Expression.ofRaw one.world (String.ofList written) =
      Expression.ofRaw other.world (String.ofList written))
    (h : Paired pairing gauges.number (compilers.number (String.ofList written))
      (others.number (String.ofList written))) :
    Paired pairing (TextStep.excess? gauges) (number one compilers name nameStart written)
      (number other others name nameStart written) := by
  unfold number
  rw [hw]
  simp only [Expression.prepareNumberWith, Expression.ofRaw]
  generalize compilers.number (String.ofList written) = found,
    others.number (String.ofList written) = wider at h
  cases h with
  | kept h => exact .kept (congrArg (Option.map fun _ => Excess.hidden) h)
  | broken h hs =>
    exact .broken (congrArg (Option.map fun _ => Excess.hidden) h)
      (pairing.shows_hidden hs name nameStart)
  | loose form h => exact .loose _ (pairing.meets_of_none h _ _)
  | refused h => exact .own rfl rfl

private theorem ofCallee_paired (h : pairing.TextRuns gauges text one other compilers others)
    (nameStart : Nat) {callee : Callee} (hn : Callee.next? text = some callee) :
    Paired pairing (fun term : TextTerm => term.step.excess? gauges)
      (ofCallee one compilers nameStart callee) (ofCallee other others nameStart callee) := by
  unfold ofCallee
  cases ho : ArgumentList.open? (nameEnd nameStart callee) callee.tail with
  | none => exact .own rfl rfl
  | some list =>
    dsimp only
    cases hr : list.rest with
    | none => exact .own rfl rfl
    | some rest =>
      have hlist : Paired pairing (TextStep.excess? gauges)
          (ofList one compilers nameStart callee list rest)
          (ofList other others nameStart callee list rest) := by
        have hreceiver := Callee.mentions_receiver hn
        have hfunction := Callee.mentions_function hn
        simp only [ofList, h.world.resolve_eq .text hreceiver hfunction]
        cases ht : other.world.resolve .text callee.receiver? (String.ofList callee.function) with
        | some target =>
          refine call_paired _ _ (fun receiver hm => ?_) (h.toRuns.handed hn ho)
          exact ⟨Expression.ofRaw_eq h.world (World.mentions_receiver ht hreceiver hfunction
            receiver hm), h.receiver List.suffix_rfl hn ht receiver hm⟩
        | none =>
          refine number_paired _ _ (Expression.ofRaw_eq h.world ?_)
            (h.number List.suffix_rfl hn ho hr _ String.toList_ofList)
          rw [String.toList_ofList]
          exact .of_part (Callee.written_take_part hn _)
      dsimp only
      generalize ofList one _ _ _ _ _ = found, ofList other _ _ _ _ _ = wider at hlist
      apply hlist.map
      case hnext => exact fun _ => rfl
      case hvalue => exact fun _ => ⟨_, rfl, rfl⟩

/-- Both runs find a part, or none of them does. -/
private theorem read?_paired (h : pairing.TextRuns gauges text one other compilers others)
    (offset : Nat) :
    (read? one compilers offset text = none ∧ read? other others offset text = none) ∨
    ∃ found wider, read? one compilers offset text = some found ∧
      read? other others offset text = some wider ∧
      Paired pairing (fun term : TextTerm => term.step.excess? gauges) found wider := by
  simp only [read?]
  split
  · exact .inl ⟨rfl, rfl⟩
  · refine .inr ⟨_, _, rfl, rfl, ?_⟩
    unfold literal
    split
    · exact .own rfl rfl
    · exact .kept rfl
  · cases hn : Callee.next? text with
    | none => exact .inl ⟨rfl, rfl⟩
    | some callee => exact .inr ⟨_, _, rfl, rfl, ofCallee_paired h _ hn⟩

/-- What is wrong between two parts is found alike. -/
private theorem joinFault?_paired {α : Type} {measure : α → Option Excess} {offset : Nat}
    {text : List Char} {fault : Fault} (h : joinFault? offset text = some fault) :
    Paired pairing measure (.error fault) (.error fault) := by
  unfold joinFault? at h
  dsimp only at h
  split at h
  · cases h
  · split at h
    · obtain rfl := Option.some.inj h
      exact .own rfl rfl
    · split at h
      · obtain rfl := Option.some.inj h
        exact .own rfl rfl
      · cases h

/-- The rest behind a part hands nothing new to the compilers. -/
private theorem readAll_paired {text : List Char}
    (h : pairing.TextRuns gauges text one other compilers others) (front : List Char) :
    Paired pairing (fun steps : List TextStep => steps.findSome? (·.excess? gauges))
      (readAll one compilers (width front) text) (readAll other others (width front) text) := by
  rw [readAll_eq, readAll_eq]
  rcases read?_paired h (width front) with ⟨hone, hother⟩ | ⟨found, wider, hone, hother, hfirst⟩
  · rw [hone, hother]
    exact .kept rfl
  · rw [hone, hother]
    apply hfirst.andThen
    case hnext | hbehind => exact fun _ => rfl
    case hkept =>
      rintro term rfl hstep
      have hlength := read?_length hone
      obtain ⟨used, hused, hnext⟩ := exists_used_of_read? hone
      have hothers := readAll_paired (h.of_suffix ⟨used, hused.symm⟩) (front ++ used)
      simp only [hnext]
      cases hj : joinFault? (width (front ++ used)) term.rest with
      | some fault => exact joinFault?_paired hj
      | none =>
        dsimp only
        generalize readAll one _ _ _ = found, readAll other _ _ _ = wider at hothers
        apply hothers.map
        case hnext => exact fun _ => rfl
        case hvalue => exact fun _ => ⟨_, rfl, by rw [List.findSome?_cons, hstep]⟩
    case hbroken =>
      intro term excess steps hstep hs
      dsimp only at hs
      split at hs
      · cases hs
      · split at hs
        · cases hs
        · obtain rfl := Except.ok.inj hs
          rw [List.findSome?_cons, hstep]
termination_by text.length

end TextTerm

theorem TextForm.compileWith_paired {raw : String}
    (h : pairing.TextRuns gauges raw.toList one other compilers others) :
    Paired pairing (fun form : TextForm => form.steps.findSome? (·.excess? gauges))
      (compileWith one compilers raw) (compileWith other others raw) := by
  have hread : Paired pairing _ (TextTerm.readAll one compilers 0 raw.toList)
      (TextTerm.readAll other others 0 raw.toList) := TextTerm.readAll_paired h []
  unfold compileWith
  generalize TextTerm.readAll one compilers 0 raw.toList = found,
    TextTerm.readAll other others 0 raw.toList = wider at hread
  apply hread.andThen
  case hnext | hbehind => exact fun _ => rfl
  case hkept =>
    intro steps _ hsteps
    cases steps with
    | nil => exact .own rfl rfl
    | cons first others => exact .kept hsteps
  case hbroken =>
    intro steps excess form hsteps hf
    cases steps with
    | nil => cases hf
    | cons first others =>
      obtain rfl := Except.ok.inj hf
      exact hsteps

end Runs
end SceneFormula
