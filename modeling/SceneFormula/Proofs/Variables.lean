import SceneFormula.Proofs.Derivation

namespace SceneFormula.Arithmetic

namespace Term

mutual
/-- The variables of a term, from left to right and as often as they occur. -/
def indices : Term → List Nat
  | number _ => []
  | var index => [index]
  | unary _ operand => operand.indices
  | binary _ left right => left.indices ++ right.indices
  | call _ arguments => indicesAll arguments

def indicesAll : List Term → List Nat
  | [] => []
  | term :: rest => term.indices ++ indicesAll rest
end

mutual
def renumber (f : Nat → Nat) : Term → Term
  | number value => number value
  | var index => var (f index)
  | unary op operand => unary op (operand.renumber f)
  | binary op left right => binary op (left.renumber f) (right.renumber f)
  | call function arguments => call function (renumberAll f arguments)

def renumberAll (f : Nat → Nat) : List Term → List Term
  | [] => []
  | term :: rest => term.renumber f :: renumberAll f rest
end

theorem length_renumberAll (f : Nat → Nat) (terms : List Term) :
    (renumberAll f terms).length = terms.length := by
  induction terms with
  | nil => rfl
  | cons term rest ih => rw [renumberAll, List.length_cons, List.length_cons, ih]

mutual
theorem renumber_id : (term : Term) → term.renumber id = term
  | number _ | var _ => rfl
  | unary op operand => by rw [renumber, renumber_id operand]
  | binary op left right => by rw [renumber, renumber_id left, renumber_id right]
  | call function arguments => by rw [renumber, renumberAll_id arguments]

theorem renumberAll_id : (terms : List Term) → renumberAll id terms = terms
  | [] => rfl
  | term :: rest => by rw [renumberAll, renumber_id term, renumberAll_id rest]
end

mutual
/-- The value of a term hangs on the values of its own variables alone. -/
theorem evaluate_renumber {f : Nat → Nat} {values others : List Float} : (term : Term) →
    (∀ index ∈ term.indices, others[f index]?.getD 0 = values[index]?.getD 0) →
    (term.renumber f).evaluate others = term.evaluate values
  | number _, _ => rfl
  | var index, h => h index (by simp [indices])
  | unary op operand, h => by
    rw [renumber, evaluate, evaluate, evaluate_renumber operand h]
  | binary op left right, h => by
    rw [renumber, evaluate, evaluate,
      evaluate_renumber left fun index hi => h index (List.mem_append_left _ hi),
      evaluate_renumber right fun index hi => h index (List.mem_append_right _ hi)]
  | call function arguments, h => by
    rw [renumber, evaluate, evaluate, evaluateAll_renumberAll arguments h]

theorem evaluateAll_renumberAll {f : Nat → Nat} {values others : List Float} :
    (terms : List Term) →
    (∀ index ∈ indicesAll terms, others[f index]?.getD 0 = values[index]?.getD 0) →
    evaluateAll others (renumberAll f terms) = evaluateAll values terms
  | [], _ => rfl
  | term :: rest, h => by
    rw [renumberAll, evaluateAll, evaluateAll,
      evaluate_renumber term fun index hi => h index (List.mem_append_left _ hi),
      evaluateAll_renumberAll rest fun index hi => h index (List.mem_append_right _ hi)]
end

end Term

def TokenKind.rename (f : String → String) : TokenKind → TokenKind
  | .name text => .name (f text)
  | kind => kind

theorem TokenKind.map_rename_id (kinds : List TokenKind) : kinds.map (·.rename id) = kinds := by
  have h (kind : TokenKind) : kind.rename id = kind := by
    cases kind <;> rfl
  rw [List.map_congr_left fun kind _ => h kind, List.map_id']

def TokenKind.parameter? (parameters : List String) : TokenKind → Option Nat
  | .name text => parameters.idxOf? text
  | _ => none

/-- The variables of a derived term are the parameters that its tokens name, where no parameter has
the name of a builtin function. -/
theorem Derives.indices_eq {parameters : List String}
    (hb : ∀ name ∈ parameters, Builtin.ofName? name = none) {limit : Nat}
    {kinds : List TokenKind} {term : Term} (h : Derives parameters limit kinds term) :
    term.indices = kinds.filterMap (TokenKind.parameter? parameters) := by
  have hk : Reading.Kept parameters
      (fun kinds term => term.indices = kinds.filterMap (TokenKind.parameter? parameters))
      (fun kinds terms =>
        Term.indicesAll terms = kinds.filterMap (TokenKind.parameter? parameters)) :=
    { number := fun value => rfl
      parameter := fun h => by simp [Term.indices, TokenKind.parameter?, h]
      constant := fun hn _ => by simp [Term.indices, TokenKind.parameter?, hn]
      call := fun {name function kinds terms} hf h => by
        have hn : parameters.idxOf? name = none := by
          rw [List.idxOf?_eq_none_iff]
          intro hm
          simp [hb name hm] at hf
        simp [Term.indices, TokenKind.parameter?, List.filterMap_cons, hn, h]
      group := fun h => by simp [TokenKind.parameter?, List.filterMap_cons, h]
      unary := fun h => by simp [Term.indices, TokenKind.parameter?, List.filterMap_cons, h]
      binary := fun hl hr => by
        simp [Term.indices, TokenKind.parameter?, List.filterMap_cons, hl, hr]
      none := rfl
      last := fun h => by simp [Term.indicesAll, h]
      more := fun h ht => by
        simp [Term.indicesAll, TokenKind.parameter?, List.filterMap_cons, h, ht] }
  exact h.kept hk

/-- Every name in derived tokens is known: as a parameter, a constant or a builtin function. -/
theorem Derives.name_known {parameters : List String} {limit : Nat} {kinds : List TokenKind}
    {term : Term} (h : Derives parameters limit kinds term) {name : String}
    (hm : .name name ∈ kinds) : name ∈ parameters ∨ isReserved name = true := by
  let known (kinds : List TokenKind) : Prop :=
    ∀ name, TokenKind.name name ∈ kinds → name ∈ parameters ∨ isReserved name = true
  have hk : Reading.Kept parameters (fun kinds _ => known kinds) (fun kinds _ => known kinds) :=
    { number := fun value name hm => by simp at hm
      parameter := fun {text index} h name hm => by
        obtain rfl : name = text := by simpa using hm
        exact .inl (List.isSome_idxOf?.mp (by simp [h]))
      constant := fun {text value} hn hv name hm => by
        obtain rfl : name = text := by simpa using hm
        exact .inr (by simp [isReserved, hv])
      call := fun {text function kinds terms} hf h name hm => by
        rcases (by simpa using hm : name = text ∨ .name name ∈ kinds) with rfl | hm
        · exact .inr (by simp [isReserved, hf])
        · exact h name hm
      group := fun h name hm => h name (by simpa using hm)
      unary := fun h name hm => h name (by simpa using hm)
      binary := fun hl hr name hm => by
        rcases List.mem_append.mp hm with hm | hm
        · exact hl name hm
        · exact hr name (by simpa using hm)
      none := fun name hm => by simp at hm
      last := fun h => h
      more := fun h ht name hm => by
        rcases List.mem_append.mp hm with hm | hm
        · exact h name hm
        · exact ht name (by simpa using hm) }
  exact h.kept hk name hm

namespace Reading
variable {f : String → String} {g : Nat → Nat}

def Renames (f : String → String) (g : Nat → Nat) (reading other : Reading) : Prop :=
  ∀ kinds term, reading kinds term → other (kinds.map (·.rename f)) (term.renumber g)

theorem Renames.chain {operator? : Symbol → Option Operator} {operand other : Reading}
    (h : Renames f g operand other) :
    Renames f g (Chain operator? operand) (Chain operator? other) := by
  intro kinds term hc
  induction hc with
  | one hk => exact .one (h _ _ hk)
  | more _ ho hr ih =>
    rw [List.map_append, List.map_cons, Term.renumber]
    exact .more ih ho (h _ _ hr)

theorem Renames.listed {argument other : Reading} (h : Renames f g argument other)
    {kinds : List TokenKind} {terms : List Term} (hl : Listed argument kinds terms) :
    Listed other (kinds.map (·.rename f)) (Term.renumberAll g terms) := by
  induction hl with
  | last hk => exact .last (h _ _ hk)
  | more hk _ ih =>
    rw [List.map_append, List.map_cons, Term.renumberAll]
    exact .more (h _ _ hk) ih

theorem Renames.arguments {argument other : Reading} (h : Renames f g argument other)
    {kinds : List TokenKind} {terms : List Term} (ha : Arguments argument kinds terms) :
    Arguments other (kinds.map (·.rename f)) (Term.renumberAll g terms) := by
  cases ha with
  | none => exact .none
  | some hl => exact .some (h.listed hl)

theorem Renames.power {primary other signed deeper : Reading} (hp : Renames f g primary other)
    (hs : Renames f g signed deeper) : Renames f g (Power primary signed) (Power other deeper) := by
  intro kinds term h
  cases h with
  | base h => exact .base (hp _ _ h)
  | raised hb he =>
    rw [List.map_append, List.map_cons, Term.renumber]
    exact .raised (hp _ _ hb) (hs _ _ he)

theorem Renames.signed {power other signed deeper : Reading} (hp : Renames f g power other)
    (hs : Renames f g signed deeper) : Renames f g (Signed power signed) (Signed other deeper) := by
  intro kinds term h
  cases h with
  | power h => exact .power (hp _ _ h)
  | negate h => exact .negate (hs _ _ h)
  | not h => exact .not (hs _ _ h)

theorem Renames.chains {signed other : Reading} (h : Renames f g signed other) :
    Renames f g (chains signed) (chains other) :=
  h.chain.chain.chain.chain.chain.chain

end Reading

structure Renaming (f : String → String) (g : Nat → Nat) (parameters others : List String) :
    Prop where
  parameter {name : String} {index : Nat} (h : parameters.idxOf? name = some index) :
    others.idxOf? (f name) = some (g index)
  constant {name : String} {value : Float} (hn : parameters.idxOf? name = none)
    (hv : constant? name = some value) : f name = name ∧ others.idxOf? name = none
  builtin {name : String} {function : Builtin} (h : Builtin.ofName? name = some function) :
    f name = name

namespace Renaming
variable {f : String → String} {g : Nat → Nat} {parameters others : List String}
open Reading

theorem primary (hr : Renaming f g parameters others) {whole other : Reading}
    (hw : Renames f g whole other) :
    Renames f g (Primary parameters whole) (Primary others other) := by
  intro kinds term h
  cases h with
  | number value => exact .number value
  | parameter h => exact .parameter (hr.parameter h)
  | @constant name value hn hv =>
    obtain ⟨hf, ho⟩ := hr.constant hn hv
    change Primary others other [.name (f name)] (.number value)
    rw [hf]
    exact .constant ho hv
  | call hf ha hacc =>
    rw [List.map_cons, List.map_cons, List.map_append, Term.renumber]
    refine .call ((hr.builtin hf).symm ▸ hf) (hw.arguments ha) ?_
    rwa [Term.length_renumberAll]
  | group h =>
    rw [List.map_cons, List.map_append]
    exact .group (hw _ _ h)

/-- What is derived from tokens is derived from the renamed ones as well, with its variables
renumbered, and also where more levels may nest. -/
theorem levels (hr : Renaming f g parameters others) (left more : Nat) (h : left ≤ more) :
    Renames f g (Readings.levels parameters left).whole (Readings.levels others more).whole ∧
      Renames f g (Readings.levels parameters left).signed
        (Readings.levels others more).signed := by
  induction left generalizing more with
  | zero => exact ⟨fun _ _ => False.elim, fun _ _ => False.elim⟩
  | succ left ih =>
    obtain ⟨more, rfl⟩ : ∃ m, more = m + 1 := ⟨more - 1, by omega⟩
    obtain ⟨hw, hs⟩ := ih more (by omega)
    have hsigned := ((hr.primary hw).power hs).signed hs
    exact ⟨hsigned.chains, hsigned⟩

theorem derives (hr : Renaming f g parameters others) {limit more : Nat} (hl : limit ≤ more)
    {kinds : List TokenKind} {term : Term} (h : Derives parameters limit kinds term) :
    Derives others more (kinds.map (·.rename f)) (term.renumber g) :=
  (hr.levels (limit + 1) (more + 1) (by omega)).1 kinds term h

/-- Parameters that stand where they stood mean what they meant. -/
theorem refl (parameters : List String) : Renaming id id parameters parameters where
  parameter := fun h => h
  constant := fun hn _ => ⟨rfl, hn⟩
  builtin := fun _ => rfl

theorem derives_id (hr : Renaming id id parameters others) {limit more : Nat} (hl : limit ≤ more)
    {kinds : List TokenKind} {term : Term} (h : Derives parameters limit kinds term) :
    Derives others more kinds term := by
  have hd := hr.derives hl h
  rwa [TokenKind.map_rename_id, Term.renumber_id] at hd

end Renaming
end SceneFormula.Arithmetic
