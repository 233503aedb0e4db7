import SceneFormula.Formula.Numeric
import SceneFormula.Formula.Textual
import SceneFormula.Proofs.ArgumentWidths
import SceneFormula.Proofs.ByteOffsets

/-! Parameters that are prepared by compilers whose operations can fail. The compilers for the
parameters of a text take no text that has as many bytes, so that nested texts come to an end. -/
namespace SceneFormula
open Source (Argument width)

structure GuardedCompilers where
  number : String → Guarded Fault NumericForm
  text : String → Guarded Fault TextForm

namespace GuardedCompilers

def below (bound : Nat) (compilers : GuardedCompilers) : GuardedCompilers where
  number raw := if width raw.toList < bound then compilers.number raw
    else liftM (none : Option NumericForm)
  text raw := if width raw.toList < bound then compilers.text raw
    else liftM (none : Option TextForm)

/-- On texts with fewer bytes no operation fails. -/
structure Safe (bound : Nat) (guarded : GuardedCompilers) (compilers : Compilers) : Prop where
  number (raw : String) (h : width raw.toList < bound) :
    guarded.number raw = .of (compilers.number raw)
  text (raw : String) (h : width raw.toList < bound) : guarded.text raw = .of (compilers.text raw)

theorem Safe.mono {guarded : GuardedCompilers} {compilers : Compilers} {bound more : Nat}
    (h : guarded.Safe more compilers) (hb : bound ≤ more) : guarded.Safe bound compilers where
  number raw hr := h.number raw (hr.trans_le hb)
  text raw hr := h.text raw (hr.trans_le hb)

theorem Safe.below {guarded : GuardedCompilers} {compilers : Compilers} {bound : Nat}
    (h : guarded.Safe bound compilers) : (guarded.below bound).Safe bound compilers where
  number raw hr := (if_pos hr).trans (h.number raw hr)
  text raw hr := (if_pos hr).trans (h.text raw hr)

end GuardedCompilers

variable {guarded : GuardedCompilers} {compilers : Compilers} {bound : Nat}

namespace Expression

def prepareNumberGuarded (compilers : GuardedCompilers) (expression : Expression) :
    Guarded Fault Expression := do
  let form ← compilers.number expression.raw
  pure { expression with number := .ready form }

def prepareTextGuarded (compilers : GuardedCompilers) (expression : Expression) :
    Guarded Fault Expression := do
  let form ← compilers.text expression.raw
  pure { expression with text := .ready form }

def bindGuarded (compilers : GuardedCompilers) (declaration : Declaration) (base : Nat)
    (parameter : Expression) : Guarded Fault Expression :=
  ExceptT.adapt (·.movedBy base) <|
    match declaration.kind.treatment with
    | .number => parameter.prepareNumberGuarded compilers
    | .text => parameter.prepareTextGuarded compilers
    | .verbatim => pure parameter

theorem prepareNumberGuarded_eq (hg : guarded.Safe bound compilers) (options : Options)
    {expression : Expression} (hw : width expression.raw.toList < bound) :
    expression.prepareNumberGuarded guarded =
      .of (outcome (expression.prepareNumberWith compilers options)) := by
  unfold prepareNumberGuarded prepareNumberWith
  rw [hg.number _ hw]
  cases compilers.number expression.raw <;> rfl

theorem prepareTextGuarded_eq (hg : guarded.Safe bound compilers) (options : Options)
    {expression : Expression} (hw : width expression.raw.toList < bound) :
    expression.prepareTextGuarded guarded =
      .of (outcome (expression.prepareTextWith compilers options)) := by
  unfold prepareTextGuarded prepareTextWith
  rw [hg.text _ hw]
  cases compilers.text expression.raw <;> rfl

theorem bindGuarded_eq (hg : guarded.Safe bound compilers) (options : Options)
    (declaration : Declaration) (base : Nat) {parameter : Expression}
    (hw : width parameter.raw.toList < bound) :
    parameter.bindGuarded guarded declaration base =
      .of (outcome (parameter.bindTo compilers options declaration base)) := by
  unfold bindGuarded bindTo
  rw [prepareNumberGuarded_eq hg options hw, prepareTextGuarded_eq hg options hw]
  cases declaration.kind.treatment with
  | number =>
    rcases parameter.prepareNumberWith compilers options with ⟨_ | fault, prepared⟩ <;> rfl
  | text =>
    rcases parameter.prepareTextWith compilers options with ⟨_ | fault, prepared⟩ <;> rfl
  | verbatim => rfl

end Expression

namespace NumericCall

def addAllGuarded (context : Context) (compilers : GuardedCompilers)
    (declarations : List Declaration) :
    List Expression → List Argument → Guarded Fault (List Expression)
  | parameters, [] => pure parameters
  | parameters, written :: rest => do
    let parameter := Expression.ofRaw context.world (String.ofList written.text)
    let parameter ←
      match declarations[parameters.length]? with
      | some declaration => parameter.bindGuarded compilers declaration written.start
      | none =>
        if context.options.diagnostics then throw (.tooManyParameters written.start)
        else pure parameter
    addAllGuarded context compilers declarations (parameters ++ [parameter]) rest

theorem addAllGuarded_eq (hg : guarded.Safe bound compilers) (context : Context)
    (declarations : List Declaration) (parameters : List Expression) {written : List Argument}
    (hw : ∀ argument ∈ written, width argument.text < bound) :
    addAllGuarded context guarded declarations parameters written =
      .of (addAll context compilers declarations parameters written) := by
  induction written generalizing parameters with
  | nil => rfl
  | cons argument rest ih =>
    have hraw : width (Expression.ofRaw context.world
        (String.ofList argument.text)).raw.toList < bound := by
      rw [Expression.ofRaw, String.toList_ofList]
      exact hw argument List.mem_cons_self
    rw [addAllGuarded, addAll, addParameter]
    cases declarations[parameters.length]? with
    | none =>
      dsimp only
      split
      · rfl
      · exact ih _ fun other ho => hw other (List.mem_cons_of_mem _ ho)
    | some declaration =>
      dsimp only
      rw [Expression.bindGuarded_eq hg context.options declaration _ hraw]
      rcases Expression.bindTo compilers context.options declaration argument.start _ with
        ⟨_ | fault, parameter⟩
      · exact ih _ fun other ho => hw other (List.mem_cons_of_mem _ ho)
      · rfl

end NumericCall

namespace TextTerm

def bindAllGuarded (compilers : GuardedCompilers) :
    List Declaration → List (Expression × Nat) → Guarded Fault (List Expression)
  | declaration :: declarations, (parameter, base) :: rest => do
    let parameter ← parameter.bindGuarded compilers declaration base
    let others ← bindAllGuarded compilers declarations rest
    pure (parameter :: others)
  | _, rest => pure (rest.map (·.1))

theorem bindAllGuarded_eq (hg : guarded.Safe bound compilers) (options : Options)
    (declarations : List Declaration) {parameters : List (Expression × Nat)}
    (hw : ∀ parameter ∈ parameters, width parameter.1.raw.toList < bound) :
    bindAllGuarded guarded declarations parameters =
      .of (bindAll compilers options declarations parameters) := by
  induction declarations generalizing parameters with
  | nil => rfl
  | cons declaration declarations ih =>
    cases parameters with
    | nil => rfl
    | cons first rest =>
      obtain ⟨parameter, base⟩ := first
      have hbind := Expression.bindGuarded_eq hg options declaration base
        (hw (parameter, base) List.mem_cons_self)
      have hothers := ih fun other ho => hw other (List.mem_cons_of_mem _ ho)
      rw [bindAllGuarded, bindAll, hbind, hothers]
      rcases parameter.bindTo compilers options declaration base with ⟨_ | fault, parameter⟩
      · cases bindAll compilers options declarations rest <;> rfl
      · rfl

end TextTerm
end SceneFormula
