import SceneFormula.Proofs.Replacement
import SceneFormula.Proofs.Weaving

/-! Which variables the arithmetic of an accepted text reads. Each call is read once and in its
place if and only if no kept text touches a call with a character of a name or spells a variable. -/
namespace SceneFormula
open Arithmetic (Lexes Program TokenKind isNamePart isReserved)

/-- No text goes on the variable in front of it, and none spells a variable. -/
structure Hygienic (total : Nat) (gaps : List Char × List (List Char)) : Prop where
  apart : ∀ gap ∈ gaps.2, ∀ c ∈ gap.head?, isNamePart c = false
  fresh : ∀ gap ∈ gaps.1 :: gaps.2, Fresh total gap

theorem fresh_iff {total : Nat} {text : List Char} {kinds : List TokenKind}
    (h : Lexes text kinds) :
    Fresh total text ↔ kinds.filterMap (TokenKind.parameter? (variableNames total)) = [] := by
  rw [List.filterMap_eq_nil_iff]
  constructor
  · intro hf kind hk
    cases kind with
    | name name => exact List.idxOf?_eq_none_iff.mpr (hf kinds h name hk)
    | number | symbol => rfl
  · intro hn others ho name hm
    obtain rfl := h.unique ho
    exact List.idxOf?_eq_none_iff.mp (hn _ hm)

private theorem head_iff_takeWhile {gap : List Char} :
    (∀ c ∈ gap.head?, isNamePart c = false) ↔ gap.takeWhile isNamePart = [] := by
  cases gap with
  | nil => simp
  | cons c gap =>
    cases hc : isNamePart c with
    | true => simp [hc]
    | false => simp [hc]

private theorem dropWhile_of_takeWhile {gap : List Char} (ht : gap.takeWhile isNamePart = []) :
    gap.dropWhile isNamePart = gap := by
  have hg := List.takeWhile_append_dropWhile (p := isNamePart) (l := gap)
  rwa [ht, List.nil_append] at hg

/-- A known name that starts with a variable is a variable. -/
private theorem index_of_known {total count : Nat} {more : List Char} {name : String}
    (h : name ∈ variableNames total ∨ isReserved name = true)
    (hn : name.toList = (variableName count).toList ++ more) :
    ∃ index, (variableNames total).idxOf? name = some index := by
  rcases h with h | h
  · exact Option.isSome_iff_exists.mp (List.isSome_idxOf?.mpr h)
  · rw [toList_variableName] at hn
    rw [not_isReserved_of_head (by rw [hn]; rfl)] at h
    cases h

theorem Weaves.indices {total count : Nat} {gaps : List (List Char)} {kinds : List TokenKind}
    (h : Weaves count gaps kinds)
    (hk : ∀ name, .name name ∈ kinds → name ∈ variableNames total ∨ isReserved name = true)
    (hc : count + gaps.length ≤ total) :
    gaps.length ≤ (kinds.filterMap (TokenKind.parameter? (variableNames total))).length ∧
      (kinds.filterMap (TokenKind.parameter? (variableNames total)) =
          List.range' count gaps.length ↔
        ∀ gap ∈ gaps, (∀ c ∈ gap.head?, isNamePart c = false) ∧ Fresh total gap) := by
  induction h with
  | none => exact ⟨Nat.le_refl _, by simp⟩
  | @more count gap gaps own kinds _ hl _ ih =>
    rw [List.length_cons] at hc ⊢
    obtain ⟨hlength, hiff⟩ := ih (fun name hm => hk name (by simp [hm])) (by omega)
    obtain ⟨index, hindex⟩ := index_of_known (hk _ List.mem_cons_self) String.toList_ofList
    have hfirst : (TokenKind.name (String.ofList ((variableName (count + 1)).toList ++
        gap.takeWhile isNamePart))).parameter? (variableNames total) = some index := hindex
    rw [List.filterMap_cons_some hfirst, List.filterMap_append, List.length_cons,
      List.length_append, List.range'_succ, List.forall_mem_cons]
    refine ⟨by omega, ?_⟩
    constructor
    · intro he
      obtain ⟨rfl, hrest⟩ := List.cons.inj he
      have hl2 := congrArg List.length hrest
      rw [List.length_append, List.length_range'] at hl2
      have hown : own.filterMap (TokenKind.parameter? (variableNames total)) = [] :=
        List.eq_nil_of_length_eq_zero (by omega)
      rw [hown, List.nil_append] at hrest
      have hname := congrArg String.toList (idxOf?_variableNames.mp hindex).2
      rw [String.toList_ofList] at hname
      have ht : gap.takeWhile isNamePart = [] :=
        List.append_cancel_left (hname.trans (List.append_nil _).symm)
      rw [dropWhile_of_takeWhile ht] at hl
      exact ⟨⟨head_iff_takeWhile.mpr ht, (fresh_iff hl).mpr hown⟩, hiff.mp hrest⟩
    · rintro ⟨⟨hhead, hfresh⟩, hgaps⟩
      have ht := head_iff_takeWhile.mp hhead
      rw [dropWhile_of_takeWhile ht] at hl
      rw [ht, List.append_nil, String.ofList_toList] at hindex
      have hcount := variableName_inj (idxOf?_variableNames.mp hindex).2
      obtain rfl : count = index := by omega
      rw [(fresh_iff hl).mp hfresh, hiff.mpr hgaps, List.nil_append]

namespace Context
variable {context : Context}

/-- The variables that the arithmetic of an accepted text reads are those of its calls, each once
and in the order of the calls, exactly where the kept text is hygienic. -/
theorem indices_eq_range_iff {source : String} {form : NumericForm}
    (h : context.compileNumber source = .ok form) :
    ∃ stretches program,
      Stretch.readAll context (.ofLevels context context.options.maxDepth.toNat) 0 source.toList =
        .ok stretches ∧
      Program.parse form.program.source (variableNames form.calls.length)
        context.options.maxDepth.toNat = .ok program ∧
      form.program = program.optimize ∧
      (program.term.indices = List.range form.calls.length ↔
        Hygienic form.calls.length (Stretch.gaps stretches)) := by
  rw [compileNumber_eq, NumericForm.compileWith_eq_ok_iff] at h
  obtain ⟨items, program, hr, hp, rfl⟩ := h
  obtain ⟨stretches, hs, ha⟩ := Stretch.exists_readAll hr 0
  obtain ⟨kinds, term, hl, hd, rfl⟩ := Arithmetic.Program.parse_eq_ok_iff.mp hp
  refine ⟨stretches, _, hs, hp, rfl, ?_⟩
  change term.indices = List.range (Item.calls items).length ↔
    Hygienic (Item.calls items).length (Stretch.gaps stretches)
  rw [ha.gaps, ← Item.length_gaps]
  rw [← Item.length_gaps] at hd
  rw [String.toList_ofList, Item.spell_eq_weave] at hl
  have hseams := hr.seamed.seamedGaps
  -- The tokens in front of the first call are apart from those that its variable starts.
  obtain ⟨own, others, rfl, hown, hothers⟩ := hl.of_append (apart_weave fun next more he => by
    rw [he] at hseams
    exact hseams.head)
  have hknown : ∀ name, .name name ∈ own ++ others →
      name ∈ variableNames (Item.gaps items).2.length ∨ isReserved name = true :=
    fun name hm => hd.name_known hm
  have hbehind : ∀ name, .name name ∈ others →
      name ∈ variableNames (Item.gaps items).2.length ∨ isReserved name = true :=
    fun name hm => hknown name (List.mem_append_right _ hm)
  obtain ⟨hlength, hiff⟩ :=
    (weaves_of_lexes hothers hbehind hseams.tail).indices hbehind (by omega)
  rw [hd.indices_eq fun name hm => builtin_eq_none_of_mem hm, List.filterMap_append,
    List.range_eq_range']
  constructor
  · intro he
    have hl2 := congrArg List.length he
    rw [List.length_append, List.length_range'] at hl2
    have hnil :
        own.filterMap (TokenKind.parameter? (variableNames (Item.gaps items).2.length)) = [] :=
      List.eq_nil_of_length_eq_zero (by omega)
    rw [hnil, List.nil_append] at he
    have hgaps := hiff.mp he
    exact ⟨fun gap hg => (hgaps gap hg).1,
      List.forall_mem_cons.mpr ⟨(fresh_iff hown).mpr hnil, fun gap hg => (hgaps gap hg).2⟩⟩
  · rintro ⟨hapart, hfresh⟩
    obtain ⟨hfirst, hrest⟩ := List.forall_mem_cons.mp hfresh
    rw [(fresh_iff hown).mp hfirst, List.nil_append]
    exact hiff.mpr fun gap hg => ⟨hapart gap hg, hrest gap hg⟩

theorem indices_eq_range_iff_sample :
    ∃ form stretches program,
      sample.compileNumber "2 * Player.X() + Count(\"a, b\")" = .ok form ∧
      Stretch.readAll sample (.ofLevels sample sample.options.maxDepth.toNat) 0
        "2 * Player.X() + Count(\"a, b\")".toList = .ok stretches ∧
      Program.parse form.program.source (variableNames form.calls.length)
        sample.options.maxDepth.toNat = .ok program ∧
      (program.term.indices = List.range form.calls.length ↔
        Hygienic form.calls.length (Stretch.gaps stretches)) := by
  obtain ⟨form, h⟩ := exists_eq_ok (by decide +kernel :
    (sample.compileNumber "2 * Player.X() + Count(\"a, b\")").toBool = true)
  obtain ⟨stretches, program, hs, hp, _, hv⟩ := indices_eq_range_iff h
  exact ⟨form, stretches, program, h, hs, hp, hv⟩

/-- A name that the author wrote is read as the variable of a call. -/
theorem not_indices_eq_range :
    ¬ ∀ (source : String) (form : NumericForm) (program : Program),
      sample.compileNumber source = .ok form →
        Program.parse form.program.source (variableNames form.calls.length)
          sample.options.maxDepth.toNat = .ok program →
          program.term.indices = List.range form.calls.length := by
  intro h
  have hrun : ((sample.compileNumber "x1 + Player.X()").toOption.bind fun form =>
      (Program.parse form.program.source (variableNames form.calls.length)
        sample.options.maxDepth.toNat).toOption.map fun program =>
          (form.calls.length, program.term.indices)) = some (1, [0, 0]) := by
    decide +kernel
  obtain ⟨form, hform, hparse⟩ := Option.bind_eq_some_iff.mp hrun
  obtain ⟨program, hprogram, hvalues⟩ := Option.map_eq_some_iff.mp hparse
  obtain ⟨hcalls, hindices⟩ := Prod.mk.inj hvalues
  have hrange := h _ form program (eq_ok_of_toOption hform) (eq_ok_of_toOption hprogram)
  rw [hcalls, hindices] at hrange
  exact absurd hrange (by decide)

end Context
end SceneFormula
