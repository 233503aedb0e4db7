import SceneFormula.Proofs.Variables

namespace SceneFormula.Arithmetic.Term

theorem asNumber?_eq_some {term : Term} {value : Float} (h : term.asNumber? = some value) :
    term = number value := by
  cases term with
  | number x =>
    obtain rfl := Option.some.inj h
    rfl
  | var | unary | binary | call => cases h

/-- Terms that are all numbers are the numbers that they are read as. -/
theorem eq_map_number_of_mapM {terms : List Term} {values : List Float}
    (h : terms.mapM asNumber? = some values) : terms = values.map number := by
  induction terms generalizing values with
  | nil =>
    obtain rfl := Option.some.inj h
    rfl
  | cons term rest ih =>
    simp only [List.mapM_cons, bind, Option.bind_eq_some_iff, pure, Option.some.injEq] at h
    obtain ⟨value, hv, others, ho, rfl⟩ := h
    rw [asNumber?_eq_some hv, ih ho, List.map_cons]

private theorem evaluateAll_map_number (values numbers : List Float) :
    evaluateAll values (numbers.map number) = numbers := by
  rw [evaluateAll_eq_map, List.map_map]
  exact List.map_id' numbers

theorem indicesAll_map_number (numbers : List Float) :
    indicesAll (numbers.map number) = [] := by
  induction numbers with
  | nil => rfl
  | cons x rest ih => rw [List.map_cons, indicesAll, indices, ih, List.append_nil]

theorem evaluate_foldUnary (values : List Float) (op : Sign) (term : Term) :
    (foldUnary op term).evaluate values = op.apply (term.evaluate values) := by
  cases term <;> rfl

theorem evaluate_foldBinary (values : List Float) (op : Operator) (left right : Term) :
    (foldBinary op left right).evaluate values =
      op.apply (left.evaluate values) (right.evaluate values) := by
  unfold foldBinary
  split <;> rfl

theorem evaluate_foldCall (values : List Float) (function : Builtin) (terms : List Term) :
    (foldCall function terms).evaluate values = function.apply (evaluateAll values terms) := by
  unfold foldCall
  split
  · rename_i numbers hn
    rw [eq_map_number_of_mapM hn, evaluateAll_map_number, evaluate]
  · rfl

theorem indices_foldUnary (op : Sign) (term : Term) :
    (foldUnary op term).indices = term.indices := by
  cases term <;> rfl

theorem indices_foldBinary (op : Operator) (left right : Term) :
    (foldBinary op left right).indices = left.indices ++ right.indices := by
  unfold foldBinary
  split <;> rfl

theorem indices_foldCall (function : Builtin) (terms : List Term) :
    (foldCall function terms).indices = indicesAll terms := by
  unfold foldCall
  split
  · rename_i numbers hn
    rw [eq_map_number_of_mapM hn, indicesAll_map_number, indices]
  · rfl

mutual
/-- A folded term has the value that the term has. -/
theorem evaluate_fold (values : List Float) : (term : Term) →
    term.fold.evaluate values = term.evaluate values
  | number _ | var _ => rfl
  | unary op operand => by
    rw [fold, evaluate_foldUnary, evaluate_fold values operand, evaluate]
  | binary op left right => by
    rw [fold, evaluate_foldBinary, evaluate_fold values left, evaluate_fold values right, evaluate]
  | call function arguments => by
    rw [fold, evaluate_foldCall, evaluateAll_foldAll values arguments, evaluate]

theorem evaluateAll_foldAll (values : List Float) : (terms : List Term) →
    evaluateAll values (foldAll terms) = evaluateAll values terms
  | [] => rfl
  | term :: rest => by
    rw [foldAll, evaluateAll, evaluate_fold values term, evaluateAll_foldAll values rest,
      evaluateAll]
end

mutual
/-- A folded term has the variables of the term, in the same places. -/
theorem indices_fold : (term : Term) → term.fold.indices = term.indices
  | number _ | var _ => rfl
  | unary op operand => by
    rw [fold, indices_foldUnary, indices_fold operand, indices]
  | binary op left right => by
    rw [fold, indices_foldBinary, indices_fold left, indices_fold right, indices]
  | call function arguments => by
    rw [fold, indices_foldCall, indicesAll_foldAll arguments, indices]

theorem indicesAll_foldAll : (terms : List Term) →
    indicesAll (foldAll terms) = indicesAll terms
  | [] => rfl
  | term :: rest => by
    rw [foldAll, indicesAll, indices_fold term, indicesAll_foldAll rest, indicesAll]
end

end SceneFormula.Arithmetic.Term
