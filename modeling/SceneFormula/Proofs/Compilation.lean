import Mathlib.Data.List.Forall2
import SceneFormula.Proofs.Arguments
import SceneFormula.Proofs.Depth
import SceneFormula.Proofs.Folding
import SceneFormula.Proofs.Replacement

/-! Formulas are compiled to what they are worth. In front of any text that no name runs into, a
formula is scanned to its arithmetic and its calls, and the same holds for its arguments in turn. -/
namespace SceneFormula
open Arithmetic (Program Spells Operand)
open Source (ArgumentList listed parenthesized pieces separators)

/-- What is made of a call: it goes to the function that is meant, with the receivers and then the
arguments as they are written, and gives the value of the call. -/
structure FormulaCall.Becomes (world : World) (gap : Nat) (written : FormulaCall)
    (made : NumericCall) : Prop where
  target : ∃ target, written.callable.target? world = some target ∧
    made.routine = target.routine ∧ made.parameters.map (·.raw) = target.receivers ++
      (pieces gap (FormulaArgument.spellings gap written.arguments)).map String.ofList
  run (host : Routine → List Input → Float) : made.run host =
    (Formula.call written.callable written.arguments).value host world

variable {world : World} {gap : Nat}

structure Scanned (world : World) (gap : Nat) (calls : List FormulaCall)
    (arithmetic : Nat → List Char) (items : List Item) : Prop where
  calls : List.Forall₂ (FormulaCall.Becomes world gap) calls (Item.calls items)
  spell (count : Nat) : Item.spell count items = arithmetic count

/-- In front of any text that no name runs into, a text is scanned to calls and arithmetic. -/
def Scans (world : World) (compilers : Compilers) (gap : Nat) (text : List Char)
    (calls : List FormulaCall) (arithmetic : Nat → List Char) : Prop :=
  ∀ rest items, Bounded rest → Rewrites world compilers rest items →
    ∃ own, Rewrites world compilers (text ++ rest) (own ++ items) ∧
      Scanned world gap calls arithmetic own

private theorem divides_spaces (count : Nat) :
    ∀ c ∈ List.replicate count ' ', c ∈ separators ∧ Callee.isMark c = false := by
  intro c hc
  obtain rfl := List.eq_of_mem_replicate hc
  decide

namespace Scans
variable {compilers : Compilers} {text other : List Char} {calls more : List FormulaCall}
  {arithmetic later : Nat → List Char}

private theorem scanned_chars (text : List Char) :
    Scanned world gap [] (fun _ => text) (Item.chars text) := by
  refine ⟨?_, fun count => Item.spell_chars count text⟩
  rw [Item.calls_chars]
  exact .nil

private theorem scanned_append {first second : List Item}
    (h : Scanned world gap calls arithmetic first) (ho : Scanned world gap more later second) :
    Scanned world gap (calls ++ more)
      (fun count => arithmetic count ++ later (count + calls.length)) (first ++ second) := by
  refine ⟨?_, fun count => ?_⟩
  · rw [Item.calls_append]
    exact List.rel_append h.calls ho.calls
  · rw [Item.spell_append, h.spell, ho.spell, h.calls.length_eq]

theorem nil : Scans world compilers gap [] [] fun _ => [] :=
  fun _ _ _ h => ⟨[], h, .nil, fun _ => rfl⟩

/-- A text without marks. -/
theorem plain (ht : ∀ c ∈ text, Callee.isMark c = false) :
    Scans world compilers gap text [] fun _ => text :=
  fun _ _ hk h => ⟨_, h.preceded ht (.inr hk), scanned_chars text⟩

theorem decimal (hw : world.Writable) {whole fraction : List Char}
    (hwhole : ∀ c ∈ whole, c.isDigit = true) (hfraction : ∀ c ∈ fraction, c.isDigit = true) :
    Scans world compilers gap (whole ++ '.' :: fraction) [] fun _ => whole ++ '.' :: fraction := by
  intro rest items hk hr
  refine ⟨_, ?_, scanned_chars (whole ++ '.' :: fraction)⟩
  rw [List.append_assoc]
  exact hr.decimal hw hwhole hfraction hk

/-- Separators in front of a text. -/
theorem behind {front : List Char} (hf : ∀ c ∈ front, c ∈ separators ∧ Callee.isMark c = false)
    (h : Scans world compilers gap text calls arithmetic) :
    Scans world compilers gap (front ++ text) calls fun count => front ++ arithmetic count := by
  intro rest items hk hr
  obtain ⟨own, ho, hs⟩ := h rest items hk hr
  refine ⟨Item.chars front ++ own, ?_, scanned_append (scanned_chars front) hs⟩
  rw [List.append_assoc, List.append_assoc]
  exact ho.preceded (fun c hc => (hf c hc).2)
    (.inl fun c hc => (hf c (List.mem_of_getLast? hc)).1)

/-- Two texts, if no name runs from the first one into the second one. -/
theorem append (h : Scans world compilers gap text calls arithmetic)
    (ho : Scans world compilers gap other more later) (hne : other ≠ []) (hk : Bounded other) :
    Scans world compilers gap (text ++ other) (calls ++ more)
      fun count => arithmetic count ++ later (count + calls.length) := by
  intro rest items hrest hr
  obtain ⟨second, hsecond, hs⟩ := ho rest items hrest hr
  have hbounded : Bounded (other ++ rest) := by
    obtain ⟨c, other, rfl⟩ := List.exists_cons_of_ne_nil hne
    exact hk
  obtain ⟨first, hfirst, hf⟩ := h _ _ hbounded hsecond
  refine ⟨first ++ second, ?_, scanned_append hf hs⟩
  rw [List.append_assoc, List.append_assoc]
  exact hfirst

section Parentheses
variable (h : Scans world compilers gap text calls arithmetic)
include h

private theorem closed : Scans world compilers gap (text ++ [')']) calls
    fun count => arithmetic count ++ [')'] := by
  have hparen : Scans world compilers gap [')'] [] fun _ => [')'] := plain fun c hc => by
    obtain rfl := List.mem_singleton.mp hc
    rfl
  have hclose := h.append hparen (List.cons_ne_nil _ _) (by simp [Bounded])
  rwa [List.append_nil] at hclose

/-- A text in parentheses. -/
theorem enclose (hempty : world.function? .number .free "" = none) (enclosed : Bool) :
    Scans world compilers gap (enclose enclosed text) calls
      fun count => SceneFormula.enclose enclosed (arithmetic count) := by
  cases enclosed with
  | false => exact h
  | true =>
    intro rest items hk hr
    obtain ⟨own, ho, hs⟩ := h.closed rest items hk hr
    exact ⟨Item.chars ['('] ++ own, Rewrites.openParen hempty [] nofun nofun ho,
      scanned_append (scanned_chars ['(']) hs⟩

/-- The arguments of a builtin function. -/
theorem builtin (function : Arithmetic.Builtin) :
    Scans world compilers gap (function.name.toList ++ '(' :: (text ++ [')'])) calls
      fun count => function.name.toList ++ '(' :: (arithmetic count ++ [')']) := by
  intro rest items hk hr
  obtain ⟨own, ho, hs⟩ := h.closed rest items hk hr
  have hopen := ho.openBuiltin function
  have hall := scanned_append (scanned_chars (function.name.toList ++ ['('])) hs
  simp only [List.append_assoc, List.singleton_append, List.nil_append] at hall
  refine ⟨_, ?_, hall⟩
  simpa using hopen

end Parentheses
end Scans

section Values
variable (host : Routine → List Input → Float)

theorem runAll_eq {written : List FormulaCall} {made : List NumericCall}
    (h : List.Forall₂ (FormulaCall.Becomes world gap) written made) :
    NumericCall.runAll host made =
      written.map fun call => (Formula.call call.callable call.arguments).value host world := by
  induction h with
  | nil => rfl
  | cons hb _ ih => rw [NumericCall.runAll, List.map_cons, hb.run, ih]

theorem inputs_eq_map (parameters : List Expression) :
    Expression.inputs host parameters = parameters.map (Expression.input host) := by
  induction parameters with
  | nil => rfl
  | cons parameter rest ih => rw [Expression.inputs, ih, List.map_cons]

mutual
/-- The value of a formula is that of its arithmetic on the values of its calls. -/
theorem Formula.evaluate_calls (more : List Float) : (formula : Formula) →
    formula.evaluate ((formula.calls.map fun call =>
      (Formula.call call.callable call.arguments).value host world) ++ more) =
        formula.value host world
  | .decimal _ _ | .constant _ => rfl
  | .unary op operand => by
    rw [evaluate, calls, evaluate_calls more operand, value]
  | .binary op left right => by
    rw [evaluate, calls, List.map_append, List.append_assoc, evaluate_calls _ left,
      List.drop_left' (List.length_map _), evaluate_calls more right, value]
  | .builtin function arguments => by
    rw [evaluate, calls, evaluateAll_calls more arguments, value]
  | .call _ _ => rfl

theorem Formula.evaluateAll_calls (more : List Float) : (formulas : List Formula) →
    Formula.evaluateAll (((Formula.callsAll formulas).map fun call =>
      (Formula.call call.callable call.arguments).value host world) ++ more) formulas =
        Formula.valueAll host world formulas
  | [] => rfl
  | formula :: rest => by
    rw [evaluateAll, callsAll, List.map_append, List.append_assoc, evaluate_calls _ formula,
      List.drop_left' (List.length_map _), evaluateAll_calls more rest, valueAll]
end

end Values

theorem Formula.levels_le_depth (formula : Formula) : formula.levels ≤ formula.depth := by
  cases formula with
  | decimal | constant | call => exact Nat.zero_le _
  | unary | binary | builtin => exact Nat.le_max_left _ _

/-- A scanned formula is compiled behind spaces, if all its levels may nest. -/
theorem Formula.compileWith_spelling (context : Context) {compilers : Compilers}
    {formula : Formula} (pad : Nat) (hf : formula.Fits context.world)
    (hl : formula.levels ≤ context.options.maxDepth.toNat)
    (hs : Scans context.world compilers gap (formula.spelling gap) formula.calls
      (formula.arithmetic gap)) :
    ∃ form, NumericForm.compileWith context compilers
        (String.ofList (List.replicate pad ' ' ++ formula.spelling gap)) = .ok form ∧
      List.Forall₂ (FormulaCall.Becomes context.world gap) formula.calls form.calls ∧
      (∀ values, form.evaluate values = formula.evaluate values) ∧
      ∀ host, form.run host = formula.value host context.world := by
  obtain ⟨items, hr, hcalls, hspell⟩ := hs.behind (divides_spaces pad) [] [] nofun (.last rfl)
  rw [List.append_nil, List.append_nil, ← @String.toList_ofList (_ ++ _)] at hr
  have hcount : 0 + formula.calls.length ≤ (Item.calls items).length :=
    Nat.le_of_eq ((Nat.zero_add _).trans hcalls.length_eq)
  obtain ⟨kinds, hspells, hoperand⟩ := formula.reads _ 0 hf hl hcount
  have hlex := (hspells.spaces pad).lexes
  rw [← hspell, ← @String.toList_ofList (Item.spell 0 _)] at hlex
  have hparse := Arithmetic.Program.parse_eq_ok_iff.mpr ⟨_, _, hlex, hoperand.derives, rfl⟩
  have hvalue (values : List Float) :
      (formula.term 0).fold.evaluate values = formula.evaluate values := by
    rw [Arithmetic.Term.evaluate_fold, Formula.evaluate_term, List.drop_zero]
  refine ⟨_, NumericForm.compileWith_eq_ok_iff.mpr ⟨_, _, hr, hparse, rfl⟩, hcalls, hvalue,
    fun host => ?_⟩
  have hrun := @Formula.evaluate_calls context.world host [] formula
  rw [List.append_nil, ← runAll_eq host hcalls] at hrun
  rw [NumericForm.run, ← hrun]
  exact hvalue _

theorem FormulaArgument.length_spellings (arguments : List FormulaArgument) :
    (FormulaArgument.spellings gap arguments).length = arguments.length := by
  induction arguments with
  | nil => rfl
  | cons argument rest ih => exact congrArg (· + 1) ih

/-- A call is made with the parameters that its arguments become. -/
theorem Scans.call (hw : world.Writable) {compilers : Compilers} {callable : Callable}
    {arguments : List FormulaArgument} {target : Target} {bound : List Expression}
    (hn : ∀ name ∈ callable.ownName?, Arithmetic.isReserved name = false)
    (ht : callable.target? world = some target)
    (hmin : mandatoryCount target.declarations ≤ target.receivers.length + arguments.length)
    (hmax : target.receivers.length + arguments.length ≤ target.declarations.length)
    (hf : FormulaArgument.FitsAll world arguments
      (target.declarations.drop target.receivers.length))
    (hb : BindsAll world compilers (target.declarations.drop target.receivers.length)
      (pieces gap (FormulaArgument.spellings gap arguments)) bound)
    (hi : ∀ host, Expression.inputs host bound = FormulaArgument.inputs host world arguments) :
    Scans world compilers gap
      (callable.spelling ++ parenthesized gap (FormulaArgument.spellings gap arguments))
      [⟨callable, arguments⟩] fun count => (variableName (count + 1)).toList := by
  intro rest items _ hr
  have hlist : ∀ text ∈ FormulaArgument.spellings gap arguments,
      ArgumentList.Balanced 0 text ∧ ∃ c ∈ text, c ≠ ' ' :=
    FormulaArgument.balancedAll hw arguments _ hf
  obtain ⟨hrest, htexts⟩ := ArgumentList.read_listed hlist rest
  have hlength : bound.length = arguments.length := by
    rw [hb.length, Source.length_pieces, FormulaArgument.length_spellings]
  have hcalls : Calls world compilers target
      (ArgumentList.trimmed (ArgumentList.read 0
        (listed gap (FormulaArgument.spellings gap arguments) ++ ')' :: rest)).texts)
      ⟨target.routine, target.receivers.map (.ofRaw world) ++ bound⟩ := by
    rw [htexts]
    refine ⟨rfl, ⟨bound, rfl, hb⟩, ?_, ?_⟩
    · simpa [hlength] using hmin
    · simpa [hlength] using hmax
  have hbecomes : FormulaCall.Becomes world gap ⟨callable, arguments⟩
      ⟨target.routine, target.receivers.map (.ofRaw world) ++ bound⟩ := by
    refine ⟨⟨target, ht, rfl, ?_⟩, fun host => ?_⟩
    · rw [List.map_append, hb.map_raw, List.map_map]
      exact congrArg (· ++ _) (List.map_id _)
    · have hreceivers : (target.receivers.map (Expression.ofRaw world)).map (·.input host) =
          target.receivers.map .name := List.map_map
      rw [NumericCall.run, inputs_eq_map, List.map_append, hreceivers, ← inputs_eq_map, hi,
        Formula.value, ht]
  have hitems := hr.ofCallable hw ht hn hrest hcalls
  have htext : callable.spelling ++
      parenthesized gap (FormulaArgument.spellings gap arguments) ++ rest =
        callable.spelling ++
          '(' :: (listed gap (FormulaArgument.spellings gap arguments) ++ ')' :: rest) := by
    simp [parenthesized]
  rw [← htext] at hitems
  exact ⟨[.call _ _], hitems, .cons hbecomes .nil, fun count => List.append_nil _⟩

section Compiling
variable {options : Options}

mutual
/-- Every formula of a writable world is scanned to its calls and its arithmetic. -/
theorem Formula.scans (hw : world.Writable) : (formula : Formula) → (left : Nat) →
    formula.Fits world → formula.depth ≤ options.maxDepth.toNat → formula.nesting ≤ left →
      Scans world (.ofLevels ⟨world, options⟩ left) gap (formula.spelling gap) formula.calls
        (formula.arithmetic gap)
  | .decimal whole none, _, hf, _, _ =>
    .plain fun c hc => (plain_of_isNamePart (Arithmetic.isNamePart_of_isDigit (hf.1.2 c hc))).2.1
  | .decimal whole (some fraction), _, hf, _, _ => .decimal hw hf.1.2 (hf.2 fraction rfl).2
  | .constant known, _, _, _, _ => .plain fun c hc =>
    (plain_of_isNamePart (isNamePart_of_isIdentifier known.isIdentifier_name c hc)).2.1
  | .unary op operand, left, hf, hd, hn => by
    have hs := Formula.scans hw operand left hf (Nat.le_trans (Nat.le_max_right _ _) hd) hn
    exact (hs.enclose hw.function?_empty _).behind fun c hc =>
      ⟨(op.divides c hc).1, (op.divides c hc).2.1⟩
  | .binary op first second, left, hf, hd, hn => by
    have hdepth := Nat.max_le.mp (Nat.le_trans (Nat.le_max_right _ _) hd)
    have hnesting := Nat.max_le.mp hn
    have hs := Formula.scans hw first left hf.1 hdepth.1 hnesting.1
    have ho := Formula.scans hw second left hf.2 hdepth.2 hnesting.2
    have hseam : ∀ c ∈ ' ' :: op.symbol.spelling ++ [' '],
        c ∈ separators ∧ Callee.isMark c = false := by
      intro c hc
      rcases List.mem_append.mp hc with hc | hc
      · rcases List.mem_cons.mp hc with rfl | hc
        · decide
        · exact ⟨(op.divides c hc).1, (op.divides c hc).2.1⟩
      · exact divides_spaces 1 c hc
    have hsecond := (ho.enclose hw.function?_empty second.isOperation).behind hseam
    have hall := (hs.enclose hw.function?_empty first.isOperation).append hsecond
      (by simp) (by simp [Bounded])
    simpa [Formula.spelling, Formula.calls, Formula.arithmetic] using hall
  | .builtin function arguments, left, hf, hd, hn =>
    (Formula.scansAll hw arguments left hf.2 (Nat.le_trans (Nat.le_max_right _ _) hd) hn).builtin
      function
  | .call callable [], _, ⟨hr, target, ht, hmin, hmax, hf⟩, _, _ =>
    .call hw hr ht hmin hmax hf .none fun _ => rfl
  | .call callable (argument :: rest), left, ⟨hr, target, ht, hmin, hmax, hf⟩, hd, hn => by
    have hdepth := Nat.max_le.mp hd
    have hnesting := Nat.max_le.mp hn
    have hfits := hf
    generalize hdeclared : target.declarations.drop target.receivers.length = declared at hfits
    cases declared with
    | nil => cases hfits
    | cons declaration declarations =>
      -- Only the first text of a list has no spaces in front of it.
      obtain ⟨parameter, hb, hi⟩ :=
        FormulaArgument.binds hw argument left declaration hfits.1 hdepth.1 hnesting.1 0
      obtain ⟨bound, hall, hinputs⟩ :=
        FormulaArgument.bindsAll hw rest left declarations hfits.2 hdepth.2 hnesting.2 gap
      have hbinds : BindsAll world (.ofLevels ⟨world, options⟩ left)
          (target.declarations.drop target.receivers.length)
          (pieces gap (FormulaArgument.spellings gap (argument :: rest))) (parameter :: bound) := by
        rw [hdeclared]
        exact .more hb hall
      refine .call hw hr ht hmin hmax hf hbinds fun host => ?_
      rw [Expression.inputs, FormulaArgument.inputs, hi, hinputs]

theorem Formula.scansAll (hw : world.Writable) : (formulas : List Formula) → (left : Nat) →
    Formula.FitsAll world formulas → Formula.depthAll formulas ≤ options.maxDepth.toNat →
      Formula.nestingAll formulas ≤ left →
        Scans world (.ofLevels ⟨world, options⟩ left) gap
          (listed gap (Formula.spellings gap formulas)) (Formula.callsAll formulas)
          fun count => listed gap (Formula.arithmeticAll gap count formulas)
  | [], _, _, _, _ => .nil
  | [formula], left, hf, hd, hn => by
    have hs := Formula.scans hw formula left hf.1 (Nat.max_le.mp hd).1 (Nat.max_le.mp hn).1
    simpa [Formula.spellings, Formula.callsAll, Formula.arithmeticAll, listed,
      Source.commaSeparated] using hs
  | formula :: next :: rest, left, hf, hd, hn => by
    have hdepth := Nat.max_le.mp hd
    have hnesting := Nat.max_le.mp hn
    have hs := Formula.scans hw formula left hf.1 hdepth.1 hnesting.1
    have ho := Formula.scansAll hw (next :: rest) left hf.2 hdepth.2 hnesting.2
    have hseam : ∀ c ∈ ',' :: List.replicate gap ' ', c ∈ separators ∧ Callee.isMark c = false := by
      intro c hc
      rcases List.mem_cons.mp hc with rfl | hc
      · decide
      · exact divides_spaces gap c hc
    have hall := hs.append (ho.behind hseam) (by simp) (by simp [Bounded])
    simpa [Formula.spellings, Formula.callsAll, Formula.arithmeticAll, listed,
      Source.commaSeparated] using hall

/-- An argument becomes the parameter that its declaration asks for, also behind spaces. -/
theorem FormulaArgument.binds (hw : world.Writable) : (argument : FormulaArgument) →
    (left : Nat) → (declaration : Declaration) → argument.Fits world declaration →
      argument.depth ≤ options.maxDepth.toNat → argument.nesting ≤ left → (pad : Nat) →
        ∃ parameter, Binds world (.ofLevels ⟨world, options⟩ left) declaration.kind.treatment
            (String.ofList (List.replicate pad ' ' ++ argument.spelling gap)) parameter ∧
          ∀ host, parameter.input host = argument.input host world
  | .number formula, 0, _, _, _, hn, _ => absurd hn (Nat.not_succ_le_zero _)
  | .number formula, left + 1, declaration, hf, hd, hn, pad => by
    have hs := Formula.scans hw formula left hf.2 hd (Nat.le_of_succ_le_succ hn)
    obtain ⟨form, hc, _, _, hrun⟩ := Formula.compileWith_spelling ⟨world, options⟩ pad hf.2
      (Nat.le_trans formula.levels_le_depth hd) hs
    rw [hf.1]
    exact ⟨_, .number hc, fun host => congrArg Input.number (hrun host)⟩
  | .text text, 0, _, _, _, hn, _ => absurd hn (Nat.not_succ_le_zero _)
  | .text text, left + 1, declaration, hf, _, _, pad => by
    rw [hf.1]
    exact ⟨_, .text (TextForm.compileWith_quote ⟨world, options⟩ _ hf.2 pad), fun _ => rfl⟩

theorem FormulaArgument.bindsAll (hw : world.Writable) : (arguments : List FormulaArgument) →
    (left : Nat) → (declarations : List Declaration) →
      FormulaArgument.FitsAll world arguments declarations →
        FormulaArgument.depthAll arguments ≤ options.maxDepth.toNat →
          FormulaArgument.nestingAll arguments ≤ left → (pad : Nat) →
            ∃ bound, BindsAll world (.ofLevels ⟨world, options⟩ left) declarations
                ((FormulaArgument.spellings gap arguments).map (List.replicate pad ' ' ++ ·))
                bound ∧
              ∀ host, Expression.inputs host bound = FormulaArgument.inputs host world arguments
  | [], _, _, _, _, _, _ => ⟨[], .none, fun _ => rfl⟩
  | argument :: rest, left, declaration :: declarations, hf, hd, hn, pad => by
    have hdepth := Nat.max_le.mp hd
    have hnesting := Nat.max_le.mp hn
    obtain ⟨parameter, hb, hi⟩ :=
      FormulaArgument.binds hw argument left declaration hf.1 hdepth.1 hnesting.1 pad
    obtain ⟨bound, hall, hinputs⟩ :=
      FormulaArgument.bindsAll hw rest left declarations hf.2 hdepth.2 hnesting.2 pad
    refine ⟨parameter :: bound, .more hb hall, fun host => ?_⟩
    rw [Expression.inputs, FormulaArgument.inputs, hi, hinputs]
end

end Compiling

def Formula.sample : Formula :=
  .binary .multiply (.decimal ['2'] (some ['5']))
    (.binary .add (.call (.object "Red Box" "X") [])
      (.builtin .max [.call (.component "Player" "Physics" "Speed")
        [.number (.unary .negate
          (.call (.free "Count") [.text "a\"b", .number (.decimal ['3'] none)]))],
        .constant .pi]))

end SceneFormula
