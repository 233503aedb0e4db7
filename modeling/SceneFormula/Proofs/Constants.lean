import SceneFormula.Proofs.Folding
import SceneFormula.Proofs.Replacement

/-! What folding leaves of a term. The only parts without a variable that are left are numbers, so
that there is nothing more to fold, and a term is one number in the end if and only if no variable
occurs in it. -/
namespace SceneFormula
namespace Arithmetic

namespace Term

mutual
def parts : Term → List Term
  | number value => [number value]
  | var index => [var index]
  | unary op operand => unary op operand :: operand.parts
  | binary op left right => binary op left right :: (left.parts ++ right.parts)
  | call function arguments => call function arguments :: partsAll arguments

def partsAll : List Term → List Term
  | [] => []
  | term :: rest => term.parts ++ partsAll rest
end

theorem mem_parts_self (term : Term) : term ∈ term.parts := by
  cases term <;> exact List.mem_cons_self

/-- Parts without a variable that are all numbers. -/
def Settled (parts : List Term) : Prop :=
  ∀ part ∈ parts, part.indices = [] → ∃ value, part = number value

namespace Settled

theorem append_iff {parts others : List Term} :
    Settled (parts ++ others) ↔ Settled parts ∧ Settled others :=
  List.forall_mem_append

/-- A term without a variable is a number if its parts are settled. -/
theorem exists_number {term : Term} (h : Settled term.parts) (hi : term.indices = []) :
    ∃ value, term = number value :=
  h term term.mem_parts_self hi

theorem exists_numbers {terms : List Term} (h : Settled (partsAll terms))
    (hi : indicesAll terms = []) : ∃ values, terms.mapM asNumber? = some values := by
  induction terms with
  | nil => exact ⟨[], rfl⟩
  | cons term rest ih =>
    obtain ⟨hterm, hrest⟩ := append_iff.mp h
    obtain ⟨hi, hmore⟩ := List.append_eq_nil_iff.mp hi
    obtain ⟨value, rfl⟩ := hterm.exists_number hi
    obtain ⟨values, hv⟩ := ih hrest hmore
    exact ⟨value :: values, by simp [asNumber?, hv]⟩

/-- Parts behind a term that holds a variable if it is no number. -/
theorem cons {term : Term} {parts : List Term} (h : Settled parts)
    (ht : term.indices = [] → ∃ value, term = number value) : Settled (term :: parts) :=
  List.forall_mem_cons.mpr ⟨ht, h⟩

theorem number (value : Float) : Settled (parts (.number value)) :=
  cons nofun fun _ => ⟨value, rfl⟩

end Settled

private theorem settled_foldUnary (op : Sign) {term : Term} (h : Settled term.parts) :
    Settled (foldUnary op term).parts := by
  by_cases hi : term.indices = []
  · obtain ⟨value, rfl⟩ := h.exists_number hi
    exact .number _
  · have hkept : foldUnary op term = unary op term := by
      cases term with
      | number => exact absurd rfl hi
      | var | unary | binary | call => rfl
    rw [hkept]
    exact h.cons fun hnone => absurd hnone hi

private theorem settled_foldBinary (op : Operator) {left right : Term} (hl : Settled left.parts)
    (hr : Settled right.parts) : Settled (foldBinary op left right).parts := by
  unfold foldBinary
  split
  · exact .number _
  · rename_i hnot
    refine (Settled.append_iff.mpr ⟨hl, hr⟩).cons fun hi => ?_
    obtain ⟨hleft, hright⟩ := List.append_eq_nil_iff.mp hi
    obtain ⟨x, rfl⟩ := hl.exists_number hleft
    obtain ⟨y, rfl⟩ := hr.exists_number hright
    exact absurd rfl (hnot x y rfl)

private theorem settled_foldCall (function : Builtin) {terms : List Term}
    (h : Settled (partsAll terms)) : Settled (foldCall function terms).parts := by
  unfold foldCall
  split
  · exact .number _
  · rename_i hnone
    refine h.cons fun hi => ?_
    obtain ⟨values, hv⟩ := h.exists_numbers hi
    rw [hv] at hnone
    cases hnone

mutual
/-- Folding settles every part. -/
theorem settled_fold : (term : Term) → Settled term.fold.parts
  | number value => .number value
  | var _ => Settled.cons nofun nofun
  | unary op operand => by
    rw [fold]
    exact settled_foldUnary op (settled_fold operand)
  | binary op left right => by
    rw [fold]
    exact settled_foldBinary op (settled_fold left) (settled_fold right)
  | call function arguments => by
    rw [fold]
    exact settled_foldCall function (settled_foldAll arguments)

theorem settled_foldAll : (terms : List Term) → Settled (partsAll (foldAll terms))
  | [] => nofun
  | term :: rest => Settled.append_iff.mpr ⟨settled_fold term, settled_foldAll rest⟩
end

mutual
/-- Where all parts are settled, folding changes nothing. -/
theorem fold_eq_self : (term : Term) → Settled term.parts → term.fold = term
  | number _, _ | var _, _ => rfl
  | unary op operand, h => by
    have hkept := fold_eq_self operand fun part hp => h part (List.mem_cons_of_mem _ hp)
    rw [fold, hkept]
    cases operand with
    | number => exact nomatch h.exists_number rfl
    | var | unary | binary | call => rfl
  | binary op left right, h => by
    obtain ⟨hl, hr⟩ := Settled.append_iff.mp fun part hp => h part (List.mem_cons_of_mem _ hp)
    rw [fold, fold_eq_self left hl, fold_eq_self right hr]
    unfold foldBinary
    split
    · exact nomatch h.exists_number rfl
    · rfl
  | call function arguments, h => by
    have hkept := foldAll_eq_self arguments fun part hp => h part (List.mem_cons_of_mem _ hp)
    rw [fold, hkept]
    unfold foldCall
    split
    · rename_i values hv
      have hnone : (call function arguments).indices = [] := by
        rw [indices, eq_map_number_of_mapM hv, indicesAll_map_number]
      exact nomatch h.exists_number hnone
    · rfl

theorem foldAll_eq_self : (terms : List Term) → Settled (partsAll terms) → foldAll terms = terms
  | [], _ => rfl
  | term :: rest, h => by
    obtain ⟨hterm, hrest⟩ := Settled.append_iff.mp h
    rw [foldAll, fold_eq_self term hterm, foldAll_eq_self rest hrest]
end

theorem fold_fold (term : Term) : term.fold.fold = term.fold :=
  fold_eq_self term.fold (settled_fold term)

/-- A term folds to a number if and only if no variable occurs in it. -/
theorem fold_eq_number_iff (term : Term) :
    (∃ value, term.fold = number value) ↔ term.indices = [] := by
  constructor
  · rintro ⟨value, hv⟩
    rw [← indices_fold term, hv]
    rfl
  · intro hi
    exact (settled_fold term).exists_number (by rw [indices_fold, hi])

end Term

/-- An optimized program is a constant if and only if its text reads no parameter. -/
theorem Program.constant?_optimize (program : Program) :
    program.optimize.constant?.isSome = true ↔ program.term.indices = [] := by
  rw [← program.term.fold_eq_number_iff]
  change program.term.fold.asNumber?.isSome = true ↔ _
  cases program.term.fold <;> simp [Term.asNumber?]

end Arithmetic

namespace Context
open Arithmetic (Program Term)

/-- Arithmetic that no call is a part of has no variables. -/
private theorem indices_eq_nil {context : Context} {source : String} {form : NumericForm}
    (h : context.compileNumber source = .ok form) (hc : form.calls = []) :
    ∃ program : Program, form.program = program.optimize ∧ program.term.indices = [] := by
  rw [compileNumber_eq, NumericForm.compileWith_eq_ok_iff] at h
  obtain ⟨items, program, _, hp, rfl⟩ := h
  obtain ⟨kinds, term, _, hd, rfl⟩ := Program.parse_eq_ok_iff.mp hp
  refine ⟨_, rfl, List.eq_nil_iff_forall_not_mem.mpr fun index hi => ?_⟩
  rw [hd.indices_eq fun name hm => builtin_eq_none_of_mem hm] at hi
  have hlt := index_lt_of_mem hi
  change Item.calls items = [] at hc
  rw [hc] at hlt
  exact absurd hlt (Nat.not_lt_zero index)

/-- Folding keeps the value of a term and its variables in their order, it leaves no operation
without a variable under it, and nothing for a second folding; the term becomes a number if and only
if it has no variable. So an optimized program is a constant if and only if it reads no variable,
and a form without calls always is one. -/
theorem constants_folded :
    (∀ term : Term,
      (∀ values, term.fold.evaluate values = term.evaluate values) ∧
      ((∃ value, term.fold = .number value) ↔ term.indices = []) ∧
      term.fold.indices = term.indices ∧
      (∀ part ∈ term.fold.parts, part.indices = [] → ∃ value, part = .number value) ∧
      term.fold.fold = term.fold) ∧
    (∀ program : Program,
      program.optimize.constant?.isSome = true ↔ program.term.indices = []) ∧
    ∀ (context : Context) (source : String) (form : NumericForm),
      context.compileNumber source = .ok form → form.calls = [] →
        form.program.constant?.isSome = true := by
  refine ⟨fun term => ?_, Program.constant?_optimize, fun context source form h hc => ?_⟩
  · exact ⟨fun values => term.evaluate_fold values, term.fold_eq_number_iff, term.indices_fold,
      term.settled_fold, term.fold_fold⟩
  · obtain ⟨program, hp, hi⟩ := indices_eq_nil h hc
    rw [hp]
    exact program.constant?_optimize.mpr hi

theorem constants_folded_sample :
    (∃ value, (Term.call .sum []).fold = .number value ∧
      Term.number value ∈ (Term.binary .add (.var 0) (.call .sum [])).fold.parts ∧
      ∃ same, Term.number value = .number same) ∧
    ∃ form, sample.compileNumber "sum(1, -2) ^ 3" = .ok form ∧ form.calls = [] ∧
      form.program.constant?.isSome = true := by
  constructor
  · obtain ⟨value, hv⟩ := ((constants_folded.1 (.call .sum [])).2.1).mpr rfl
    have hm : Term.number value ∈ (Term.binary .add (.var 0) (.call .sum [])).fold.parts := by
      rw [Term.fold, hv]
      simp [Term.fold, Term.foldBinary, Term.parts]
    exact ⟨value, hv, hm, (constants_folded.1 _).2.2.2.1 _ hm rfl⟩
  · have hrun : (sample.compileNumber "sum(1, -2) ^ 3").toOption.map (·.calls.length) =
        some 0 := by
      decide +kernel
    obtain ⟨form, hform, hcalls⟩ := Option.map_eq_some_iff.mp hrun
    have hok := eq_ok_of_toOption hform
    have hnone := List.eq_nil_of_length_eq_zero hcalls
    exact ⟨form, hok, hnone, constants_folded.2.2 sample _ form hok hnone⟩

end Context
end SceneFormula
