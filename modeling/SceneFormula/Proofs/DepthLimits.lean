import SceneFormula.Proofs.ArgumentWidths
import SceneFormula.Proofs.Depth
import SceneFormula.Proofs.LevelNeeds
import SceneFormula.Proofs.PairedRuns
import SceneFormula.Proofs.Replacement
import SceneFormula.Proofs.TextLanguage
import SceneFormula.Proofs.VariableNames

/-! The limit on levels is nothing but a limit. What is accepted under one is accepted under every
larger one with the same form, and from the number of bytes of the text on the limit plays no part:
arguments get shorter from level to level, but for a number in a text, which is as long as its call
and whose arguments are shorter by both of its parentheses. -/
namespace SceneFormula
open Arithmetic (Program)
open Source (ArgumentList ArgumentsBelow width)

def Context.limitedTo (context : Context) (limit : UInt64) : Context :=
  { context with options := { context.options with maxDepth := limit } }

/-- The same answer under two limits, of which none is exceeded. -/
inductive Steady {α : Type} : Except Fault α → Except Fault α → Prop
  | accepted (value : α) : Steady (.ok value) (.ok value)
  | refused {fault : Fault} (h : ∀ limit, fault ≠ .nestingTooDeep limit) :
    Steady (.error fault) (.error fault)

theorem Steady.of_eq {α : Type} {answer other : Except Fault α} (he : answer = other)
    (h : ∀ limit, answer ≠ .error (.nestingTooDeep limit)) : Steady answer other := by
  subst he
  cases answer with
  | ok value => exact .accepted value
  | error fault => exact .refused fun limit hf => h limit (congrArg Except.error hf)

/-- Compilers that answer the same to texts of fewer bytes than `bound`, and to numbers whose
arguments have so few bytes. No text has more bytes than `top`. -/
structure Compilers.Steady (bound top : Nat) (fewer wider : Compilers) : Prop where
  number {raw : String} {size : Nat} (ha : ArgumentsBelow size raw.toList) (hs : size < bound)
    (ht : width raw.toList ≤ top) : SceneFormula.Steady (fewer.number raw) (wider.number raw)
  text {raw : String} (h : width raw.toList < bound) :
    SceneFormula.Steady (fewer.text raw) (wider.text raw)

/-- Rewriting opens no level that the text does not open. -/
theorem Item.countP_spell_le (count : Nat) (items : List Item) :
    (spell count items).countP Arithmetic.opensLevel ≤
      (written items).countP Arithmetic.opensLevel := by
  induction items generalizing count with
  | nil => exact Nat.le_refl 0
  | cons item items ih =>
    cases item with
    | char c =>
      have := ih count
      rw [spell, written, List.countP_cons, List.countP_cons]
      omega
    | call site made =>
      have hvariable : (variableName (count + 1)).toList.countP Arithmetic.opensLevel = 0 := by
        rw [List.countP_eq_zero]
        intro c hc
        have hpart := isNamePart_of_mem_variableName hc
        simp only [Arithmetic.opensLevel, Bool.or_eq_true, beq_iff_eq]
        rintro (((rfl | rfl) | rfl) | rfl) <;> cases hpart
      have := ih (count + 1)
      rw [spell, written, List.countP_append, List.countP_append, hvariable]
      omega

def FaultRelation.unlimited : FaultRelation where
  Relates fault other := fault = other ∧ ∀ limit, fault ≠ .nestingTooDeep limit
  movedBy {fault _} h base := by
    obtain ⟨rfl, hl⟩ := h
    refine ⟨rfl, fun limit hf => ?_⟩
    cases fault with
    | nestingTooDeep own => exact hl own rfl
    | _ => cases hf
  self hp _ := by
    refine ⟨rfl, ?_⟩
    rintro limit rfl
    cases hp

theorem Steady.of_paired {α : Type} {excess? : α → Option Excess} {one other : Except Fault α}
    (h : Paired FaultRelation.unlimited.pairing excess? one other) : Steady one other := by
  rcases FaultRelation.of_paired h with ⟨value, rfl, rfl⟩ | ⟨fault, other, rfl, rfl, rfl, hl⟩
  · exact .accepted value
  · exact .refused hl

theorem Steady.paired {α : Type} {one other : Except Fault α} (h : Steady one other) :
    Paired FaultRelation.unlimited.pairing (fun _ => none) one other := by
  cases h with
  | accepted => exact .kept rfl
  | refused h => exact FaultRelation.paired ⟨rfl, h⟩

/-- The text of a call is not longer than the text in which it stands, and its arguments are
shorter than the call. -/
private theorem Callee.Splits.argumentsBelow_closed {text rest : List Char} {callee : Callee}
    (hs : callee.Splits text) {offset : Nat} {list : ArgumentList}
    (ho : ArgumentList.open? offset callee.tail = some list) (hr : list.rest = some rest) :
    let written := callee.written ++ callee.tail.take (callee.tail.length - rest.length)
    ArgumentsBelow (width written - 1) written ∧ 0 < width written ∧
      width written ≤ width text := by
  obtain ⟨spaces, tail, hopen, rfl⟩ := ArgumentList.open?_eq_some_iff.mp ho
  obtain ⟨inside, rfl, -⟩ := ArgumentList.resume_stop hr
  have hbelow : ArgumentsBelow (width (callee.site spaces inside).span - 1)
      (callee.site spaces inside).span :=
    WrittenCall.argumentsBelow_span
      (fun c hc => hs.unmarked c (List.mem_append_right _ hc)) hs.site_member
      (ArgumentList.read_close_iff.mp hr)
  have hinfix : (callee.site spaces inside).span <:+: text := by
    refine ⟨callee.lead, rest, ?_⟩
    rw [← hs.lead_append_head hopen inside]
    simp [WrittenCall.span, Callee.site]
  have hpos := Source.length_le_width (callee.site spaces inside).span
  have hmem := List.length_pos_of_mem (callee.site spaces inside).mem_span
  rw [hs.written_append_take hopen]
  exact ⟨hbelow, by omega, Source.width_le_of_infix hinfix⟩

section Steps
variable (context : Context) (limit more : UInt64) {bound top : Nat} {fewer wider : Compilers}

/-- Parameters are read in texts of fewer bytes. -/
private theorem Compilers.Steady.paired (hc : fewer.Steady bound top wider) (hb : bound ≤ top)
    {raw : String} (hr : width raw.toList < bound) :
    fewer.Paired FaultRelation.unlimited.pairing .none wider raw :=
  ⟨(hc.number (Source.argumentsBelow_width _) hr (by omega)).paired, (hc.text hr).paired⟩

private theorem surplus_limitedTo :
    FaultRelation.unlimited.pairing.Surplus (context.limitedTo limit).options
      (context.limitedTo more).options :=
  .same rfl fun _ => ⟨_, rfl, rfl, nofun⟩

private theorem runs_limitedTo (hc : fewer.Steady bound top wider) (hb : bound ≤ top)
    {text : List Char} (ha : ArgumentsBelow bound text) :
    FaultRelation.unlimited.pairing.Runs .none text (context.limitedTo limit)
      (context.limitedTo more) fewer wider where
  world := .refl text _
  surplus := surplus_limitedTo context limit more
  argument ht ho argument hm := by
    obtain ⟨used, rfl⟩ := ht
    refine hc.paired hb ?_
    rw [String.toList_ofList]
    exact ha.of_append.of_open? ho hm

/-- A call that is read as a number stands one level deeper in a text that is not shorter, but its
arguments are. -/
private theorem textRuns_limitedTo (hc : fewer.Steady bound top wider) (hb : bound ≤ top)
    {text : List Char} (ht : width text ≤ bound) :
    FaultRelation.unlimited.pairing.TextRuns .none text (context.limitedTo limit)
      (context.limitedTo more) fewer wider where
  toRuns := runs_limitedTo context limit more hc hb ((Source.argumentsBelow_width text).mono ht)
  receiver hs hn hr receiver hm := by
    have hreceiver := (Callee.next?_eq_some_iff.mp hn).width_receiver hr hm
    have hle := Source.width_le_of_infix hs.isInfix
    exact hc.paired hb (by omega)
  number hs hn ho hr raw hraw := by
    obtain ⟨hbelow, hpos, hle⟩ :=
      (Callee.next?_eq_some_iff.mp hn).argumentsBelow_closed ho hr
    rw [← hraw] at hbelow hpos hle
    have hrest := Source.width_le_of_infix hs.isInfix
    exact (hc.number hbelow (by omega) (by omega)).paired

private theorem NumericForm.compileWith_steady (hc : fewer.Steady bound top wider)
    (hb : bound ≤ top) (hl : top ≤ limit.toNat) (hm : top ≤ more.toNat) {raw : String}
    (ha : ArgumentsBelow bound raw.toList) (hr : width raw.toList ≤ top) :
    Steady (compileWith (context.limitedTo limit) fewer raw)
      (compileWith (context.limitedTo more) wider raw) := by
  refine .of_paired (compileWith_paired (runs_limitedTo context limit more hc hb ha)
    (fun _ => none) (fun _ => rfl) fun stretches hone => ?_)
  obtain ⟨items, hrewrites, hagrees⟩ := Stretch.exists_rewrites hone
  have hcount : (String.ofList (Stretch.arithmetic 0 stretches)).toList.countP
      Arithmetic.opensLevel ≤ top :=
    calc (String.ofList (Stretch.arithmetic 0 stretches)).toList.countP Arithmetic.opensLevel
      _ = (Item.spell 0 items).countP Arithmetic.opensLevel := by
        rw [String.toList_ofList, hagrees.spell]
      _ ≤ raw.toList.countP Arithmetic.opensLevel :=
        hrewrites.written ▸ Item.countP_spell_le 0 items
      _ ≤ width raw.toList := Nat.le_trans List.countP_le_length (Source.length_le_width _)
      _ ≤ top := hr
  refine (Steady.of_eq ?_ ?_).paired
  · exact Program.parse_eq_of_le (Nat.le_trans hcount hl) (Nat.le_trans hcount hm)
  · exact Program.parse_ne_nestingTooDeep (Nat.le_trans hcount hl)

/-- Levels as many as the bytes of the text suffice, and one more for a number in a text. -/
private theorem Compilers.ofLevels_steady (hl : top ≤ limit.toNat) (hm : top ≤ more.toNat)
    (bound : Nat) (hb : bound ≤ top + 1) {one other : Nat} (ho : bound ≤ one)
    (hother : bound ≤ other) :
    (ofLevels (context.limitedTo limit) one).Steady bound top
      (ofLevels (context.limitedTo more) other) := by
  induction bound generalizing one other with
  | zero =>
    exact ⟨fun _ hs _ => absurd hs (Nat.not_lt_zero _), fun h => absurd h (Nat.not_lt_zero _)⟩
  | succ bound ih =>
    obtain ⟨one, rfl⟩ : ∃ k, one = k + 1 := ⟨one - 1, by omega⟩
    obtain ⟨other, rfl⟩ : ∃ k, other = k + 1 := ⟨other - 1, by omega⟩
    have hc := @ih (by omega) one other (by omega) (by omega)
    constructor
    · intro raw size ha hs ht
      exact NumericForm.compileWith_steady context limit more hc (by omega) hl hm
        (ha.mono (by omega)) ht
    · intro raw h
      have hruns := textRuns_limitedTo context limit more hc (by omega)
        (Nat.le_of_lt_succ h)
      exact .of_paired (TextForm.compileWith_paired hruns)

end Steps

namespace Context

/-- A larger limit keeps what is accepted, with the same form. Limits of at least as many bytes as
the text has give the same answers, and none of them is exceeded. -/
theorem compile_limitedTo (context : Context) (source : String) :
    (∀ limit more : UInt64, limit ≤ more →
      (∀ form, (context.limitedTo limit).compileNumber source = .ok form →
        (context.limitedTo more).compileNumber source = .ok form) ∧
      ∀ form, (context.limitedTo limit).compileText source = .ok form →
        (context.limitedTo more).compileText source = .ok form) ∧
    ∀ limit more : UInt64, source.utf8ByteSize ≤ limit.toNat → source.utf8ByteSize ≤ more.toNat →
      Steady ((context.limitedTo limit).compileNumber source)
        ((context.limitedTo more).compileNumber source) ∧
      Steady ((context.limitedTo limit).compileText source)
        ((context.limitedTo more).compileText source) := by
  constructor
  · intro limit more h
    have hle : limit.toNat ≤ more.toNat := UInt64.le_iff_toNat_le.mp h
    have hr : ((context.limitedTo limit).compilersAt 0).Refines
        ((context.limitedTo more).compilersAt 0) :=
      Compilers.ofLevels_refines hle (Nat.succ_le_succ hle)
    exact ⟨fun _ => hr.number, fun _ => hr.text⟩
  · intro limit more hl hm
    rw [← Source.width_toList] at hl hm
    have hc : ((context.limitedTo limit).compilersAt 0).Steady (width source.toList + 1)
        (width source.toList) ((context.limitedTo more).compilersAt 0) :=
      Compilers.ofLevels_steady context limit more hl hm _ (Nat.le_refl _)
        (Nat.succ_le_succ hl) (Nat.succ_le_succ hm)
    exact ⟨hc.number (Source.argumentsBelow_width _) (Nat.lt_succ_self _) (Nat.le_refl _),
      hc.text (Nat.lt_succ_self _)⟩

/-- Behind the text stand a parameter and the number in it. -/
theorem compile_limitedTo_nested :
    (∃ form, (textSample.limitedTo 2).compileText "Upper(Player.X())" = .ok form ∧
      (textSample.limitedTo 3).compileText "Upper(Player.X())" = .ok form) ∧
    Steady ((textSample.limitedTo 17).compileText "Upper(Player.X())")
      ((textSample.limitedTo 18446744073709551615).compileText "Upper(Player.X())") := by
  obtain ⟨hkept, hsteady⟩ := compile_limitedTo textSample "Upper(Player.X())"
  obtain ⟨form, h⟩ := exists_eq_ok (by decide +kernel :
    ((textSample.limitedTo 2).compileText "Upper(Player.X())").toBool = true)
  exact ⟨⟨form, h, (hkept 2 3 (by decide)).2 form h⟩,
    (hsteady 17 18446744073709551615 (by decide) (by decide)).2⟩

end Context
end SceneFormula
