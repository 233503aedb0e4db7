import SceneFormula.Proofs.Depth
import SceneFormula.Proofs.Extending
import SceneFormula.Proofs.Hygiene
import SceneFormula.Proofs.Shifting

namespace SceneFormula
open Arithmetic (Derives Lexes Operator Program Term TokenKind isNamePart isReserved)
open Source (separators)

namespace Item

/-- The kept texts are parts of the text, and those behind calls follow a closing parenthesis. -/
theorem gaps_infix (items : List Item) :
    (gaps items).1 <+: written items ∧
      ∀ gap ∈ (gaps items).2, gap <:+: written items ∧
        ∀ c ∈ gap.head?, [')', c] <:+: written items := by
  induction items with
  | nil => exact ⟨List.prefix_refl _, nofun⟩
  | cons item items ih =>
    obtain ⟨hfirst, hbehind⟩ := ih
    cases item with
    | char c =>
      refine ⟨(List.prefix_cons_inj c).mpr hfirst, fun gap hg => ?_⟩
      obtain ⟨hg, hc⟩ := hbehind gap hg
      exact ⟨List.infix_cons hg, fun d hd => List.infix_cons (hc d hd)⟩
    | call site made =>
      have hsuffix : written items <:+: written (.call site made :: items) :=
        (List.suffix_append site.span _).isInfix
      refine ⟨List.nil_prefix, fun gap hg => ?_⟩
      rcases List.mem_cons.mp hg with rfl | hg
      · refine ⟨hfirst.isInfix.trans hsuffix, fun c hc => ?_⟩
        obtain ⟨more, hm⟩ := hfirst
        obtain ⟨gap, hgap⟩ : ∃ gap, (gaps items).1 = c :: gap := List.head?_eq_some_iff.mp hc
        refine ⟨site.head ++ site.inside, gap ++ more, ?_⟩
        rw [written, WrittenCall.span, ← hm, hgap]
        simp
      · obtain ⟨hg, hc⟩ := hbehind gap hg
        exact ⟨hg.trans hsuffix, fun d hd => (hc d hd).trans hsuffix⟩

end Item

/-- No text that an author could take for a variable, and none that touches a call from behind. -/
structure Unambiguous (text : List Char) : Prop where
  noVariable : ∀ d, d.isDigit = true → ¬ ['x', d] <:+: text
  noTouching : ∀ c, isNamePart c = true → ¬ [')', c] <:+: text

theorem pair_infix_iff {a b : Char} {text : List Char} :
    [a, b] <:+: text ↔ (a, b) ∈ text.zip text.tail := by
  induction text with
  | nil => simp
  | cons c text ih =>
    rw [List.infix_cons_iff, ih]
    cases text with
    | nil => simp
    | cons d text => simp [List.cons_prefix_cons]

def confuses (pair : Char × Char) : Bool :=
  pair.1 == 'x' && pair.2.isDigit || pair.1 == ')' && isNamePart pair.2

theorem unambiguous_iff {text : List Char} :
    Unambiguous text ↔ (text.zip text.tail).any confuses = false := by
  rw [List.any_eq_false]
  constructor
  · rintro ⟨hv, ht⟩ ⟨a, b⟩ hp
    rw [← pair_infix_iff] at hp
    simp only [confuses, Bool.or_eq_true, Bool.and_eq_true, beq_iff_eq]
    rintro (⟨rfl, hb⟩ | ⟨rfl, hb⟩)
    · exact hv b hb hp
    · exact ht b hb hp
  · intro h
    refine ⟨fun d hd hp => ?_, fun c hc hp => ?_⟩
    · exact h _ (pair_infix_iff.mp hp) (by simp [confuses, hd])
    · exact h _ (pair_infix_iff.mp hp) (by simp [confuses, hc])

instance (text : List Char) : Decidable (Unambiguous text) :=
  decidable_of_iff _ unambiguous_iff.symm

/-- An unambiguous text keeps nothing that is read as a variable. -/
theorem Unambiguous.hygienic {items : List Item} (h : Unambiguous (Item.written items))
    (total : Nat) : Hygienic total (Item.gaps items) := by
  obtain ⟨hfirst, hbehind⟩ := Item.gaps_infix items
  constructor
  · intro gap hg c hc
    rw [← Bool.not_eq_true]
    intro hpart
    exact h.noTouching c hpart ((hbehind gap hg).2 c hc)
  · intro gap hg kinds hl name hm hmem
    have hinfix : gap <:+: Item.written items := by
      rcases List.mem_cons.mp hg with rfl | hg
      · exact hfirst.isInfix
      · exact (hbehind gap hg).1
    obtain ⟨index, _, rfl⟩ := mem_variableNames.mp hmem
    have hdigits : Nat.toDigits 10 (index + 1) ≠ [] := Nat.toDigits_ne_nil
    obtain ⟨d, digits, hd⟩ := List.exists_cons_of_ne_nil hdigits
    have hname := (hl.name_infix hm).trans hinfix
    rw [toList_variableName, hd] at hname
    have hmem : d ∈ Nat.toDigits 10 (index + 1) := by
      rw [hd]
      exact List.mem_cons_self
    have hdigit : d.isDigit = true := isDigit_of_mem_toDigits hmem
    exact h.noVariable d hdigit (List.IsInfix.trans ⟨[], digits, rfl⟩ hname)

/-- The arithmetic of an accepted hygienic text is read the same behind more calls. -/
theorem lexes_spell_shift {items : List Item} {kinds : List TokenKind} {offset : Nat}
    (hs : Item.Seamed none items) (hl : Lexes (Item.spell 0 items) kinds)
    (hk : ∀ name, .name name ∈ kinds →
      name ∈ variableNames (Item.calls items).length ∨ isReserved name = true)
    (hh : Hygienic (Item.calls items).length (Item.gaps items)) :
    Lexes (Item.spell offset items)
      (kinds.map (·.rename (shiftName (Item.calls items).length offset))) := by
  have hseams := hs.seamedGaps
  have hapart : ∀ count, Arithmetic.Apart (Item.gaps items).1 (weave count (Item.gaps items).2) :=
    fun count => apart_weave fun next more he => by
      rw [he] at hseams
      exact hseams.head
  rw [Item.spell_eq_weave] at hl ⊢
  obtain ⟨own, others, rfl, hown, hothers⟩ := hl.of_append (hapart 0)
  have hweaves := weaves_of_lexes hothers
    (fun name hm => hk name (List.mem_append_right _ hm)) hseams.tail
  have hshift : Lexes (weave (offset + 0) (Item.gaps items).2) _ :=
    hweaves.lexes_shift hseams.tail hh.apart
      (fun gap hg => hh.fresh gap (List.mem_cons_of_mem _ hg)) (by rw [Item.length_gaps]; omega)
  rw [List.map_append, map_rename_of_fresh offset hown (hh.fresh _ List.mem_cons_self)]
  exact hown.append hshift (hapart offset)

def joinTexts (op : Operator) (first second : String) : String :=
  "(" ++ first ++ ")" ++ String.ofList op.symbol.spelling ++ "(" ++ second ++ ")"

theorem toList_joinTexts (op : Operator) (first second : String) :
    (joinTexts op first second).toList = '(' :: (first.toList ++
      (')' :: op.symbol.spelling ++ '(' :: (second.toList ++ [')']))) := by
  simp [joinTexts]

def joinItems (op : Operator) (first second : List Item) : List Item :=
  Item.chars ['('] ++
    (first ++ (Item.chars (')' :: op.symbol.spelling ++ ['(']) ++ (second ++ [.char ')'])))

theorem calls_joinItems (op : Operator) (first second : List Item) :
    Item.calls (joinItems op first second) = Item.calls first ++ Item.calls second := by
  simp only [joinItems, Item.calls_append, Item.calls_chars, List.nil_append]
  rw [Item.calls, Item.calls, List.append_nil]

theorem spell_joinItems (op : Operator) (first second : List Item) :
    Item.spell 0 (joinItems op first second) = '(' :: (Item.spell 0 first ++ [')']) ++
      (op.symbol.spelling ++
        '(' :: (Item.spell (Item.calls first).length second ++ [')'])) := by
  simp only [joinItems, Item.spell_append, Item.calls_chars, Item.spell_chars, Item.spell,
    List.length_nil, Nat.zero_add, Nat.add_zero]
  simp

theorem Rewrites.joinItems {world : World} {compilers : Compilers}
    (hempty : world.function? .number .free "" = none) (op : Operator)
    {text other : List Char} {first second : List Item}
    (hf : Rewrites world compilers text first) (hs : Rewrites world compilers other second) :
    Rewrites world compilers
      ('(' :: (text ++ (')' :: op.symbol.spelling ++ '(' :: (other ++ [')']))))
      (SceneFormula.joinItems op first second) := by
  have hjoint : ∀ c ∈ ')' :: op.symbol.spelling, c ∈ separators ∧ Callee.isMark c = false ∧
      Callee.endsMember c = false := by
    intro c hc
    rcases List.mem_cons.mp hc with rfl | hc
    · decide
    · obtain ⟨hsep, hmark, hends, _⟩ := op.divides c hc
      exact ⟨hsep, hmark, hends⟩
  have hfirst : ')' ∈ (')' :: op.symbol.spelling).dropLast := by
    cases op <;> exact List.mem_cons_self
  have hrest := Rewrites.joined hempty (fun c hc => (hjoint c hc).2.1)
    (fun c hc => (hjoint c (List.mem_of_getLast? hc)).1) hs.closeParen
    (fun c hc => (hjoint c hc).2.2) ⟨')', hfirst, by decide⟩ hf
  exact Rewrites.openParen hempty [] nofun nofun hrest

/-- The value of joined terms, where the second one is numbered behind the values of the first. -/
theorem evaluate_joined (op : Operator) {left right : Term} {va vb : List Float}
    (h : ∀ index ∈ left.indices, index < va.length) :
    (Term.binary op left (right.renumber (va.length + ·))).evaluate (va ++ vb) =
      op.apply (left.evaluate va) (right.evaluate vb) := by
  have hleft : left.evaluate (va ++ vb) = left.evaluate va := by
    have hid : (left.renumber id).evaluate (va ++ vb) = left.evaluate va :=
      Term.evaluate_renumber left fun index hi => by
        rw [id, List.getElem?_append_left (h index hi)]
    rwa [Term.renumber_id] at hid
  have hright : (right.renumber (va.length + ·)).evaluate (va ++ vb) = right.evaluate vb :=
    Term.evaluate_renumber right fun index _ => by
      rw [List.getElem?_append_right (Nat.le_add_right _ _), Nat.add_sub_cancel_left]
  rw [Term.evaluate, hleft, hright]

/-- The arithmetic of joined items is the program of both terms under the operator. -/
theorem parse_joinItems (op : Operator) {limit : Nat} {first second : List Item}
    {kinds more : List TokenKind} {left right : Term} (hs : Item.Seamed none second)
    (hh : Hygienic (Item.calls second).length (Item.gaps second))
    (hl : Lexes (Item.spell 0 first) kinds) (hm : Lexes (Item.spell 0 second) more)
    (hd : Derives (variableNames (Item.calls first).length) limit kinds left)
    (he : Derives (variableNames (Item.calls second).length) limit more right) :
    Program.parse (String.ofList (Item.spell 0 (joinItems op first second)))
        (variableNames (Item.calls (joinItems op first second)).length) (limit + 2) =
      .ok ⟨String.ofList (Item.spell 0 (joinItems op first second)),
        variableNames (Item.calls (joinItems op first second)).length,
        .binary op left (right.renumber ((Item.calls first).length + ·))⟩ := by
  have hshift : Lexes (Item.spell (Item.calls first).length second) _ :=
    lexes_spell_shift hs hm (fun name hn => he.name_known hn) hh
  have hlex := Arithmetic.Lexes.joined op hl hshift
  have hleft := (renaming_first (Item.calls first).length (Item.calls second).length).derives_id
    (Nat.le_refl _) hd
  have hright := (renaming_shift (Item.calls second).length (Item.calls first).length).derives
    (Nat.le_refl _) he
  have hderives := Derives.joined op hleft hright
  rw [← List.length_append, ← calls_joinItems op] at hderives
  rw [← spell_joinItems, ← @String.toList_ofList (Item.spell 0 _)] at hlex
  exact Arithmetic.Program.parse_eq_ok_iff.mpr ⟨_, _, hlex, hderives, rfl⟩

namespace Context
variable {world : World} {options deeper : Options}

/-- Two accepted texts in parentheses, with an operator between them, are accepted two levels deeper
with the calls of both, and have the value of the operator. Only the second text is renumbered, so
only there could kept text be taken for a call. -/
theorem compileNumber_joinTexts (hempty : world.function? .number .free "" = none)
    (hdepth : deeper.maxDepth.toNat = options.maxDepth.toNat + 2) (op : Operator)
    {a b : String} {first second : NumericForm}
    (ha : compileNumber ⟨world, options⟩ a = .ok first)
    (hb : compileNumber ⟨world, options⟩ b = .ok second) (hu : Unambiguous b.toList) :
    ∃ form, compileNumber ⟨world, deeper⟩ (joinTexts op a b) = .ok form ∧
      form.calls = first.calls ++ second.calls ∧
      ∀ va vb : List Float, va.length = first.calls.length →
        form.evaluate (va ++ vb) = op.apply (first.evaluate va) (second.evaluate vb) := by
  rw [compileNumber_eq, NumericForm.compileWith_eq_ok_iff] at ha hb
  obtain ⟨itemsA, programA, hrA, hpA, rfl⟩ := ha
  obtain ⟨itemsB, programB, hrB, hpB, rfl⟩ := hb
  obtain ⟨kindsA, termA, hlA, hdA, rfl⟩ := Arithmetic.Program.parse_eq_ok_iff.mp hpA
  obtain ⟨kindsB, termB, hlB, hdB, rfl⟩ := Arithmetic.Program.parse_eq_ok_iff.mp hpB
  rw [String.toList_ofList] at hlA hlB
  have hrefines : (Compilers.ofLevels ⟨world, options⟩ options.maxDepth.toNat).Refines
      (Compilers.ofLevels ⟨world, deeper⟩ deeper.maxDepth.toNat) :=
    Compilers.ofLevels_refines (by omega) (by omega)
  have hrewrites := Rewrites.joinItems hempty op (hrA.mono hrefines) (hrB.mono hrefines)
  rw [← toList_joinTexts] at hrewrites
  have hhygienic : Hygienic (Item.calls itemsB).length (Item.gaps itemsB) :=
    Unambiguous.hygienic (hrB.written.symm ▸ hu) _
  have hparse := parse_joinItems op hrB.seamed hhygienic hlA hlB hdA hdB
  rw [← hdepth] at hparse
  refine ⟨_, NumericForm.compileWith_eq_ok_iff.mpr ⟨_, _, hrewrites, hparse, rfl⟩,
    calls_joinItems op _ _, fun va vb hv => ?_⟩
  have hindices : ∀ index ∈ termA.indices, index < va.length := by
    intro index hi
    rw [hdA.indices_eq fun name hm => builtin_eq_none_of_mem hm] at hi
    exact hv ▸ index_lt_of_mem hi
  change (Term.fold _).evaluate (va ++ vb) =
    op.apply (termA.fold.evaluate va) (termB.fold.evaluate vb)
  rw [Term.evaluate_fold, Term.evaluate_fold, Term.evaluate_fold]
  have hn : va.length = (Item.calls itemsA).length := hv
  rw [← hn]
  exact evaluate_joined op hindices

theorem compileNumber_joinTexts_sample :
    ∃ first second form, sample.compileNumber "Player.X() + 1" = .ok first ∧
      sample.compileNumber "-Count(\"a, b\")" = .ok second ∧
      compileNumber ⟨sample.world, ⟨true, 66⟩⟩ "(Player.X() + 1)^(-Count(\"a, b\"))" = .ok form ∧
      form.calls = first.calls ++ second.calls ∧
      ∀ va vb : List Float, va.length = first.calls.length →
        form.evaluate (va ++ vb) = (first.evaluate va).pow (second.evaluate vb) := by
  obtain ⟨first, ha⟩ := exists_eq_ok (by decide +kernel :
    (sample.compileNumber "Player.X() + 1").toBool = true)
  obtain ⟨second, hb⟩ := exists_eq_ok (by decide +kernel :
    (sample.compileNumber "-Count(\"a, b\")").toBool = true)
  obtain ⟨form, hform⟩ := compileNumber_joinTexts
    (by decide : sample.world.function? .number .free "" = none)
    (by decide : (⟨true, 66⟩ : Options).maxDepth.toNat = sample.options.maxDepth.toNat + 2)
    .power ha hb (by decide)
  exact ⟨first, second, form, ha, hb, hform⟩

end Context
end SceneFormula
