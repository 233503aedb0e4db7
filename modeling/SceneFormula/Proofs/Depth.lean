import SceneFormula.Formula.Compile
import SceneFormula.Proofs.Combining
import SceneFormula.Proofs.Rewriting
import SceneFormula.Proofs.TextCuts

/-! What is accepted at a depth is accepted, with the same form, where more may nest. Whether faults
are kept does not matter to what is accepted. -/
namespace SceneFormula
open Arithmetic (Program)

/-- What the one compilers accept, the other ones accept with the same form. -/
structure Compilers.Refines (fewer more : Compilers) : Prop where
  number {raw : String} {form : NumericForm} (h : fewer.number raw = .ok form) :
    more.number raw = .ok form
  text {raw : String} {form : TextForm} (h : fewer.text raw = .ok form) :
    more.text raw = .ok form

theorem Arithmetic.Program.parse_mono {source : String} {parameters : List String}
    {limit more : Nat} {program : Program} (hl : limit ≤ more)
    (h : Program.parse source parameters limit = .ok program) :
    Program.parse source parameters more = .ok program := by
  obtain ⟨kinds, term, hlex, hd, rfl⟩ := Program.parse_eq_ok_iff.mp h
  exact Program.parse_eq_ok_iff.mpr ⟨kinds, term, hlex, hd.mono hl, rfl⟩

section Refinement
variable {world : World} {options others : Options} {fewer more : Compilers}

theorem Binds.mono (hr : fewer.Refines more) {treatment : Treatment} {raw : String}
    {parameter : Expression} (h : Binds world fewer treatment raw parameter) :
    Binds world more treatment raw parameter := by
  cases h with
  | number h => exact .number (hr.number h)
  | text h => exact .text (hr.text h)
  | verbatim => exact .verbatim

theorem BindsAll.mono (hr : fewer.Refines more) {declarations : List Declaration}
    {texts : List (List Char)} {parameters : List Expression}
    (h : BindsAll world fewer declarations texts parameters) :
    BindsAll world more declarations texts parameters := by
  induction h with
  | none => exact .none
  | more hb _ ih => exact .more (hb.mono hr) ih

theorem Calls.mono (hr : fewer.Refines more) {target : Target} {texts : List (List Char)}
    {made : NumericCall} (h : Calls world fewer target texts made) :
    Calls world more target texts made := by
  obtain ⟨bound, hp, hb⟩ := h.parameters
  exact ⟨h.routine, ⟨bound, hp, hb.mono hr⟩, h.atLeast, h.atMost⟩

theorem Rewrites.mono (hr : fewer.Refines more) {text : List Char} {items : List Item}
    (h : Rewrites world fewer text items) : Rewrites world more text items := by
  induction h with
  | last hn => exact .last hn
  | dot hn hb _ ih => exact .dot hn hb ih
  | name hn hb ht _ ih => exact .name hn hb ht ih
  | call hn hb ht ho hl hc _ ih => exact .call hn hb ht ho hl (hc.mono hr) ih

theorem NumericForm.compileWith_mono (hr : fewer.Refines more)
    (hl : options.maxDepth.toNat ≤ others.maxDepth.toNat) {raw : String} {form : NumericForm}
    (h : NumericForm.compileWith ⟨world, options⟩ fewer raw = .ok form) :
    NumericForm.compileWith ⟨world, others⟩ more raw = .ok form := by
  obtain ⟨items, program, hi, hp, rfl⟩ := NumericForm.compileWith_eq_ok_iff.mp h
  exact NumericForm.compileWith_eq_ok_iff.mpr
    ⟨items, program, hi.mono hr, Program.parse_mono hl hp, rfl⟩

theorem BindsFirst.mono (hr : fewer.Refines more) {declarations : List Declaration}
    {raws : List String} {parameters : List Expression}
    (h : BindsFirst world fewer declarations raws parameters) :
    BindsFirst world more declarations raws parameters := by
  induction h with
  | surplus => exact .surplus
  | more hb _ ih => exact .more (hb.mono hr) ih

theorem WrittenTerm.Becomes.mono (hr : fewer.Refines more) {term : WrittenTerm} {step : TextStep}
    (h : term.Becomes world fewer step) : term.Becomes world more step := by
  cases h with
  | quoted hb => exact .quoted hb
  | call hw hs =>
    cases hs with
    | call ht hb => exact .call hw (.call ht (hb.mono hr))
    | number ht hn => exact .call hw (.number ht (hr.number hn))

theorem TextCut.Holds.mono (hr : fewer.Refines more) {cut : TextCut}
    (h : cut.Holds world fewer) : cut.Holds world more := by
  refine ⟨fun part hp => ?_, h.joined, h.tail⟩
  have hstands := h.parts part hp
  exact ⟨hstands.gap, hstands.follows, hstands.becomes.mono hr⟩

theorem TextForm.compileWith_mono (hr : fewer.Refines more) {raw : String} {form : TextForm}
    (h : TextForm.compileWith ⟨world, options⟩ fewer raw = .ok form) :
    TextForm.compileWith ⟨world, others⟩ more raw = .ok form := by
  obtain ⟨cut, hcut, hw, hne, hsteps⟩ := TextForm.compileWith_eq_ok_iff.mp h
  exact TextForm.compileWith_eq_ok_iff.mpr ⟨cut, hcut.mono hr, hw, hne, hsteps⟩

/-- More levels accept what fewer ones do, in the same world. -/
theorem Compilers.ofLevels_refines (hl : options.maxDepth.toNat ≤ others.maxDepth.toNat)
    {left levels : Nat} (h : left ≤ levels) :
    (Compilers.ofLevels ⟨world, options⟩ left).Refines
      (Compilers.ofLevels ⟨world, others⟩ levels) := by
  induction left generalizing levels with
  | zero => exact ⟨nofun, nofun⟩
  | succ left ih =>
    obtain ⟨levels, rfl⟩ : ∃ k, levels = k + 1 := ⟨levels - 1, by omega⟩
    have hr : (ofLevels ⟨world, options⟩ left).Refines (ofLevels ⟨world, others⟩ levels) :=
      ih (by omega)
    exact ⟨fun h => NumericForm.compileWith_mono hr hl h, fun h => TextForm.compileWith_mono hr h⟩

end Refinement
end SceneFormula
