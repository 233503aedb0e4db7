import SceneFormula.Proofs.ArgumentLists
import SceneFormula.Proofs.ByteOffsets

/-! Where an argument list is divided. Its commas and its closing parenthesis are those that are
reached with nothing open: no parenthesis and no quoted text that began behind the start of the
list. Joined by commas, the arguments are the text that was read, and pieces in which nothing stays
open are read back from their list. -/
namespace SceneFormula.Source

/-- What is open behind a text: how many more parentheses were opened than closed outside quotes,
and whether a quoted text goes on. A quote behind a backslash opens and closes nothing. -/
structure Standing where
  depth : Int := 0
  quoted : Bool := false
  escaped : Bool := false
  deriving DecidableEq

def Standing.behind (standing : Standing) (c : Char) : Standing :=
  let quoted := if c = '"' ∧ standing.escaped = false then !standing.quoted else standing.quoted
  { depth :=
      if quoted then standing.depth
      else if c = '(' then standing.depth + 1
      else if c = ')' then standing.depth - 1
      else standing.depth
    quoted
    escaped := c == '\\' }

/-- What is open behind a text, counted from its start. What stands before the start plays no part,
not even a backslash. -/
def standing (text : List Char) : Standing :=
  text.foldl Standing.behind {}

def IsOuter (text : List Char) : Prop :=
  (standing text).depth = 0 ∧ (standing text).quoted = false

instance (text : List Char) : Decidable (IsOuter text) :=
  inferInstanceAs (Decidable (_ ∧ _))

def OuterAt (text : List Char) (start : Nat) (c : Char) (place : Nat) : Prop :=
  ∃ before inside after, text = before ++ inside ++ c :: after ∧ start = width before ∧
    place = start + width inside ∧ IsOuter inside

def IsPlain (text : List Char) : Prop :=
  ∀ c ∈ [',', ')'], ∀ inside after, text = inside ++ c :: after → ¬ IsOuter inside

theorem standing_append_cons (text more : List Char) (c : Char) :
    standing (text ++ c :: more) = more.foldl Standing.behind ((standing text).behind c) := by
  rw [standing, List.foldl_append, List.foldl_cons]
  rfl

theorem standing_concat (text : List Char) (c : Char) :
    standing (text ++ [c]) = (standing text).behind c :=
  standing_append_cons text [] c

/-- Behind a comma that is reached with nothing open all starts again. -/
theorem standing_comma {text : List Char} (h : IsOuter text) (more : List Char) :
    standing (text ++ ',' :: more) = standing more := by
  have hagain : (standing text).behind ',' = {} := by
    obtain ⟨hd, hq⟩ := h
    simp [Standing.behind, hd, hq]
  rw [standing_append_cons, hagain, standing]

theorem isOuter_comma {text : List Char} (h : IsOuter text) (more : List Char) :
    IsOuter (text ++ ',' :: more) ↔ IsOuter more := by
  rw [IsOuter, standing_comma h, IsOuter]

/-- Only finitely many places have to be looked at. -/
theorem isPlain_iff {text : List Char} :
    IsPlain text ↔ ∀ place < text.length,
      (text.drop place).head? ∈ [some ',', some ')'] → ¬ IsOuter (text.take place) := by
  constructor
  · intro h place hp hc
    rw [List.drop_eq_getElem_cons hp, List.head?_cons] at hc
    have hmark : text[place] ∈ [',', ')'] := by simpa using hc
    exact h _ hmark _ (text.drop (place + 1))
      (by rw [← List.drop_eq_getElem_cons hp, List.take_append_drop])
  · rintro h c hc inside after rfl
    have hmark : some c ∈ [some ',', some ')'] := by simpa using hc
    simpa using h inside.length (by simp) (by simpa using hmark)

instance (text : List Char) : Decidable (IsPlain text) :=
  decidable_of_iff _ isPlain_iff.symm

theorem isPlain_nil : IsPlain [] := by
  decide

theorem IsPlain.concat {text : List Char} {c : Char} (h : IsPlain text)
    (hc : c ∈ [',', ')'] → ¬ IsOuter text) : IsPlain (text ++ [c]) := by
  intro d hd inside after he
  rcases List.eq_nil_or_concat after with rfl | ⟨init, last, rfl⟩
  · obtain ⟨rfl, hl⟩ := List.append_inj' he rfl
    obtain rfl : c = d := by simpa using hl
    exact hc hd
  · rw [List.concat_eq_append, ← List.cons_append, ← List.append_assoc] at he
    exact h d hd inside init (List.append_inj' he rfl).1

/-- A mark that is reached with nothing open does not stand in a plain text. -/
theorem IsPlain.split {text inside more after : List Char} {c d : Char} (h : IsPlain text)
    (hc : c ∈ [',', ')']) (ho : IsOuter inside) (he : text ++ d :: more = inside ++ c :: after) :
    inside = text ∧ c = d ∧ after = more ∨
      ∃ between, inside = text ++ d :: between ∧ more = between ++ c :: after := by
  rcases List.append_eq_append_iff.mp he with ⟨between, rfl, hb⟩ | ⟨between, rfl, hb⟩
  · cases between with
    | nil =>
      obtain ⟨rfl, rfl⟩ := List.cons.inj hb
      exact .inl ⟨List.append_nil text, rfl, rfl⟩
    | cons e between =>
      obtain ⟨rfl, hmore⟩ := List.cons.inj hb
      exact .inr ⟨between, rfl, hmore⟩
  · cases between with
    | nil =>
      obtain ⟨rfl, rfl⟩ := List.cons.inj hb
      exact .inl ⟨(List.append_nil inside).symm, rfl, rfl⟩
    | cons e between =>
      obtain ⟨rfl, -⟩ := List.cons.inj hb
      exact absurd ho (h c hc inside between rfl)

/-- The first mark that is reached with nothing open divides a text in one way. -/
theorem IsPlain.unique {text inside more after : List Char} {c d : Char} (h : IsPlain text)
    (ht : IsOuter text) (hd : d ∈ [',', ')']) (hi : IsPlain inside) (hc : c ∈ [',', ')'])
    (ho : IsOuter inside) (he : text ++ d :: more = inside ++ c :: after) :
    inside = text ∧ c = d ∧ after = more := by
  rcases h.split hc ho he with hsame | ⟨between, rfl, -⟩
  · exact hsame
  · exact absurd ht (hi d hd text between rfl)

namespace ArgumentList

/-- Arguments in a text that starts at an offset, divided at the commas that are reached with
nothing open, up to the first such parenthesis, which stands before `rest`. -/
inductive Divided : Option (List Char) → Nat → List Char → List Argument → Prop
  | opened {start : Nat} {text : List Char} (h : IsPlain text) :
    Divided none start text [⟨text, start⟩]
  | closed {start : Nat} {text rest : List Char} (h : IsPlain text) (ho : IsOuter text) :
    Divided (some rest) start (text ++ ')' :: rest) [⟨text, start⟩]
  | comma {rest : Option (List Char)} {start : Nat} {text more : List Char}
    {arguments : List Argument} (h : IsPlain text) (ho : IsOuter text)
    (hm : Divided rest (start + width text + 1) more arguments) :
    Divided rest start (text ++ ',' :: more) (⟨text, start⟩ :: arguments)

/-- What a character does to what is open, and what it means for the list. -/
private theorem move_behind (level : Nat) (quoted : Bool) (previous c : Char) :
    match move level quoted previous c with
    | .keep other within =>
      Standing.behind ⟨level, quoted, previous == '\\'⟩ c = ⟨other, within, c == '\\'⟩ ∧
        (c ∈ [',', ')'] → ¬ (level = 0 ∧ quoted = false))
    | .close => c = ')' ∧ level = 0 ∧ quoted = false
    | .comma => c = ',' ∧ level = 0 ∧ quoted = false := by
  have hescaped : ((previous == '\\') = false) = (previous ≠ '\\') := by simp
  rw [move]
  simp only [Standing.behind, hescaped]
  by_cases hquote : c = '"'
  · subst hquote
    by_cases hslash : previous = '\\' <;> cases quoted <;> cases level <;>
      simp [hslash, moveOutside]
  · cases quoted with
    | true => simp [hquote]
    | false =>
      by_cases hopen : c = '('
      · subst hopen
        simp [moveOutside]
      · by_cases hclose : c = ')'
        · subst hclose
          cases level <;> simp [moveOutside]
        · by_cases hcomma : c = ',' <;> cases level <;>
            simp [moveOutside, hquote, hopen, hclose, hcomma]

private theorem isOuter_iff {part : List Char} {level : Nat} {quoted escaped : Bool}
    (hs : standing part = ⟨level, quoted, escaped⟩) :
    IsOuter part ↔ level = 0 ∧ quoted = false := by
  rw [IsOuter, hs]
  exact and_congr_left' Int.natCast_eq_zero

/-- Reading goes on with the argument at hand, of which `part` was read. -/
private theorem resume_divided (text : List Char) {part : List Char} {level : Nat} {quoted : Bool}
    {previous : Char} (hs : standing part = ⟨level, quoted, previous == '\\'⟩) (hp : IsPlain part)
    {start offset : Nat} (ho : offset = start + width part) :
    Divided (resume level quoted previous offset text).rest start (part ++ text)
      (⟨part ++ (resume level quoted previous offset text).first.text, start⟩ ::
        (resume level quoted previous offset text).others) := by
  induction text generalizing part level quoted previous start offset with
  | nil => simpa [resume] using Divided.opened hp
  | cons c text ih =>
    have hmove := move_behind level quoted previous c
    rw [← hs, ← standing_concat, ← isOuter_iff hs] at hmove
    rw [resume_cons]
    cases hm : move level quoted previous c with
    | keep other within =>
      rw [hm] at hmove
      obtain ⟨hbehind, hplain⟩ := hmove
      have hoffset : offset + c.utf8Size = start + width (part ++ [c]) := by
        rw [width_append, width_cons, width_nil]
        omega
      simpa [push] using ih hbehind (hp.concat hplain) hoffset
    | close =>
      rw [hm] at hmove
      obtain ⟨rfl, hopen⟩ := hmove
      simpa using @Divided.closed start part text hp hopen
    | comma =>
      rw [hm] at hmove
      obtain ⟨rfl, hopen⟩ := hmove
      have hmore := @ih [] 0 false ',' rfl isPlain_nil (offset + 1) (offset + 1) rfl
      rw [List.nil_append, List.nil_append, first_resume, ho] at hmore
      simp only [pushEmpty, List.append_nil, ho]
      exact .comma hp hopen hmore

theorem read_divided (offset : Nat) (text : List Char) :
    Divided (read offset text).rest offset text (read offset text).arguments := by
  have h := @resume_divided text [] 0 false '(' rfl isPlain_nil offset offset rfl
  rwa [List.nil_append, List.nil_append, first_resume] at h

def tail : Option (List Char) → List Char
  | none => []
  | some rest => ')' :: rest

def joined (arguments : List Argument) : List Char :=
  [','].intercalate (arguments.map (·.text))

theorem joined_cons (argument : Argument) {others : List Argument} (h : others ≠ []) :
    joined (argument :: others) = argument.text ++ ',' :: joined others := by
  obtain ⟨next, others, rfl⟩ := List.exists_cons_of_ne_nil h
  simp [joined, List.intercalate_cons_cons]

namespace Divided
variable {rest other : Option (List Char)} {start : Nat} {text : List Char}
  {arguments others : List Argument}

theorem ne_nil (h : Divided rest start text arguments) : arguments ≠ [] := by
  cases h <;> exact List.cons_ne_nil _ _

/-- Nothing of the text is lost. -/
theorem text_eq (h : Divided rest start text arguments) :
    text = joined arguments ++ tail rest := by
  induction h with
  | opened => simp [joined, tail]
  | closed => simp [joined, tail]
  | comma _ _ hm ih => rw [joined_cons _ hm.ne_nil, List.append_assoc, List.cons_append, ← ih]

/-- Each argument stands at its offset. -/
theorem exists_split (h : Divided rest start text arguments) {argument : Argument}
    (ha : argument ∈ arguments) :
    ∃ before after, text = before ++ argument.text ++ after ∧
      argument.start = start + width before := by
  induction h with
  | @opened start text =>
    obtain rfl := List.mem_singleton.mp ha
    exact ⟨[], [], by simp, rfl⟩
  | @closed start text rest =>
    obtain rfl := List.mem_singleton.mp ha
    exact ⟨[], ')' :: rest, rfl, rfl⟩
  | @comma rest start text more others _ _ hm ih =>
    rcases List.mem_cons.mp ha with rfl | ha
    · exact ⟨[], ',' :: more, rfl, rfl⟩
    · obtain ⟨before, after, rfl, hs⟩ := ih ha
      refine ⟨text ++ ',' :: before, after, by simp, ?_⟩
      have hcomma : ','.utf8Size = 1 := rfl
      rw [hs, width_append, width_cons]
      omega

/-- The list is closed where nothing is open. -/
theorem isOuter_joined {behind : List Char} (h : Divided (some behind) start text arguments) :
    IsOuter (joined arguments) := by
  generalize hr : some behind = rest at h
  induction h with
  | opened => cases hr
  | closed _ ho => simpa [joined] using ho
  | comma _ ho hm ih =>
    rw [joined_cons _ hm.ne_nil, isOuter_comma ho]
    exact ih hr

/-- No parenthesis closes the list before its end. -/
theorem not_isOuter_of_close (h : Divided rest start text arguments) {inside after : List Char}
    (he : joined arguments = inside ++ ')' :: after) : ¬ IsOuter inside := by
  intro ho
  induction h generalizing inside with
  | opened hp => exact hp ')' (by simp) inside after (by simpa [joined] using he) ho
  | closed hp => exact hp ')' (by simp) inside after (by simpa [joined] using he) ho
  | comma hp hcomma hm ih =>
    rw [joined_cons _ hm.ne_nil] at he
    rcases hp.split (by simp) ho he with ⟨-, hc, -⟩ | ⟨between, rfl, hbetween⟩
    · cases hc
    · exact ih hbetween ((isOuter_comma hcomma between).mp ho)

/-- The commas behind the arguments but the last one are those that are reached with nothing
open. -/
theorem exists_mem_dropLast_iff (h : Divided rest start text arguments) (place : Nat) :
    (∃ argument ∈ arguments.dropLast, place = argument.start + width argument.text) ↔
      ∃ inside after, joined arguments = inside ++ ',' :: after ∧ place = start + width inside ∧
        IsOuter inside := by
  induction h with
  | opened hp | closed hp =>
    constructor
    · rintro ⟨argument, ha, -⟩
      cases ha
    · rintro ⟨inside, after, he, -, ho⟩
      exact absurd ho (hp ',' (by simp) inside after (by simpa [joined] using he))
  | @comma rest start text more others hp hcomma hm ih =>
    have hsize : ','.utf8Size = 1 := rfl
    rw [joined_cons _ hm.ne_nil, List.dropLast_cons_of_ne_nil hm.ne_nil]
    constructor
    · rintro ⟨argument, ha, rfl⟩
      rcases List.mem_cons.mp ha with rfl | ha
      · exact ⟨text, joined others, rfl, rfl, hcomma⟩
      · obtain ⟨inside, after, he, hplace, ho⟩ := ih.mp ⟨argument, ha, rfl⟩
        refine ⟨text ++ ',' :: inside, after, by simp [he], ?_, (isOuter_comma hcomma _).mpr ho⟩
        rw [hplace, width_append, width_cons]
        omega
    · rintro ⟨inside, after, he, rfl, ho⟩
      rcases hp.split (by simp) ho he with ⟨rfl, -, -⟩ | ⟨between, rfl, hbetween⟩
      · exact ⟨_, List.mem_cons_self, rfl⟩
      · have hplace : start + width (text ++ ',' :: between) =
            start + width text + 1 + width between := by
          rw [width_append, width_cons]
          omega
        obtain ⟨argument, ha, he⟩ := ih.mpr
          ⟨between, after, hbetween, hplace, (isOuter_comma hcomma between).mp ho⟩
        exact ⟨argument, List.mem_cons_of_mem _ ha, he⟩

/-- A text is divided in one way. -/
theorem unique (h : Divided rest start text arguments) (ho : Divided other start text others) :
    rest = other ∧ arguments = others := by
  induction h generalizing others with
  | @opened start text hp =>
    cases ho with
    | opened => exact ⟨rfl, rfl⟩
    | @closed _ inside after _ houter => exact absurd houter (hp ')' (by simp) inside after rfl)
    | @comma _ _ inside more _ _ houter => exact absurd houter (hp ',' (by simp) inside more rfl)
  | @closed start text behind hp houter =>
    generalize he : text ++ ')' :: behind = whole at ho
    cases ho with
    | opened hwhole => exact absurd houter (hwhole ')' (by simp) text behind he.symm)
    | closed hi ho =>
      obtain ⟨rfl, -, rfl⟩ := hp.unique houter (by simp) hi (by simp) ho he
      exact ⟨rfl, rfl⟩
    | comma hi ho =>
      obtain ⟨-, hc, -⟩ := hp.unique houter (by simp) hi (by simp) ho he
      cases hc
  | @comma rest start text more arguments hp houter hm ih =>
    generalize he : text ++ ',' :: more = whole at ho
    cases ho with
    | opened hwhole => exact absurd houter (hwhole ',' (by simp) text more he.symm)
    | closed hi ho =>
      obtain ⟨-, hc, -⟩ := hp.unique houter (by simp) hi (by simp) ho he
      cases hc
    | comma hi ho hmore =>
      obtain ⟨rfl, -, rfl⟩ := hp.unique houter (by simp) hi (by simp) ho he
      obtain ⟨rfl, rfl⟩ := ih hmore
      exact ⟨rfl, rfl⟩

end Divided

private theorem joined_push (c : Char) (offset : Nat) (list : ArgumentList) :
    joined (list.push c offset).arguments = c :: joined list.arguments := by
  obtain ⟨first, others, stop, rest⟩ := list
  cases others <;> simp [joined, push, arguments, List.intercalate_cons_cons]

private theorem joined_pushEmpty (offset : Nat) (list : ArgumentList) :
    joined (list.pushEmpty offset).arguments = ',' :: joined list.arguments :=
  joined_cons ⟨[], offset⟩ (List.cons_ne_nil _ _)

/-- Reading stops behind the arguments. -/
private theorem resume_stop_eq (level : Nat) (quoted : Bool) (previous : Char) (offset : Nat)
    (text : List Char) :
    (resume level quoted previous offset text).stop =
      offset + width (joined (resume level quoted previous offset text).arguments) := by
  induction text generalizing level quoted previous offset with
  | nil => rfl
  | cons c text ih =>
    rw [resume_cons]
    cases hm : move level quoted previous c with
    | keep other within =>
      simp only [joined_push, width_cons, ← Nat.add_assoc]
      exact ih other within c (offset + c.utf8Size)
    | close => rfl
    | comma =>
      have hcomma := move_behind level quoted previous c
      rw [hm] at hcomma
      obtain ⟨rfl, -⟩ := hcomma
      simp only [joined_pushEmpty, width_cons, ← Nat.add_assoc]
      exact ih 0 false ',' (offset + ','.utf8Size)

/-- How a list is divided that is read from an offset: its arguments joined by commas are the text
up to where reading stops, each one stands at its offset, the list is closed at the first
parenthesis that is reached with nothing open, if there is one, and the commas between the arguments
are those before it that are reached with nothing open. -/
structure IsDivision (text : List Char) (start : Nat) (list : ArgumentList) : Prop where
  joined : slice? text start list.stop = some ([','].intercalate list.texts)
  placed : ∀ argument ∈ list.arguments,
    slice? text argument.start (argument.start + width argument.text) = some argument.text
  close : list.close = if list.stop < width text then some list.stop else none
  first : ∀ place, list.close = some place ↔
    OuterAt text start ')' place ∧ ∀ other < place, ¬ OuterAt text start ')' other
  commas : ∀ place,
    (∃ argument ∈ list.arguments.dropLast, place = argument.start + width argument.text) ↔
      place < list.stop ∧ OuterAt text start ',' place

private theorem outerAt_iff {front text : List Char} {c : Char} {place : Nat} :
    OuterAt (front ++ text) (width front) c place ↔
      ∃ inside after, text = inside ++ c :: after ∧ place = width front + width inside ∧
        IsOuter inside := by
  constructor
  · rintro ⟨before, inside, after, ht, hw, hp, ho⟩
    rw [List.append_assoc] at ht
    obtain ⟨rfl, rfl⟩ := append_inj_of_width ht hw
    exact ⟨inside, after, rfl, hp, ho⟩
  · rintro ⟨inside, after, rfl, hp, ho⟩
    exact ⟨front, inside, after, by simp, rfl, hp, ho⟩

/-- A mark that stands before another end of its text stands in front of that end. -/
private theorem exists_of_width_lt {inside after other tail : List Char} {c : Char}
    (h : inside ++ c :: after = other ++ tail) (hw : width inside < width other) :
    ∃ more, other = inside ++ c :: more := by
  rcases List.append_eq_append_iff.mp h with ⟨between, rfl, hb⟩ | ⟨between, rfl, -⟩
  · cases between with
    | nil => simp at hw
    | cons d between =>
      obtain ⟨rfl, -⟩ := List.cons.inj hb
      exact ⟨between, rfl⟩
  · rw [width_append] at hw
    omega

/-- What is divided is a division. -/
private theorem Divided.isDivision {front text : List Char} {list : ArgumentList}
    (h : Divided list.rest (width front) text list.arguments)
    (hs : list.stop = width front + width (ArgumentList.joined list.arguments)) :
    IsDivision (front ++ text) (width front) list := by
  have htext := h.text_eq
  constructor
  case joined =>
    refine @slice?_eq _ front _ (tail list.rest) _ _ ?_ rfl (by rw [hs, width_append]; rfl)
    rw [htext, ← List.append_assoc]
    rfl
  case placed =>
    intro argument ha
    obtain ⟨before, after, ht, hstart⟩ := h.exists_split ha
    refine @slice?_eq _ (front ++ before) _ after _ _ (by rw [ht]; simp) ?_ ?_
    · rw [hstart, width_append]
    · rw [hstart, width_append, width_append]
  case close =>
    rw [close, hs, htext]
    cases list.rest with
    | none => simp [tail]
    | some behind =>
      have hlt : width front + width (ArgumentList.joined list.arguments) <
          width (front ++ (ArgumentList.joined list.arguments ++ tail (some behind))) := by
        have hsize : ')'.utf8Size = 1 := rfl
        simp only [width_append, tail, width_cons]
        omega
      rw [if_pos hlt]
      rfl
  case first =>
    intro place
    have hbefore {other : Nat} (hlt : other < list.stop) :
        ¬ OuterAt (front ++ text) (width front) ')' other := by
      rw [outerAt_iff]
      rintro ⟨inside, after, he, rfl, ho⟩
      obtain ⟨more, hm⟩ := exists_of_width_lt (he.symm.trans htext) (by omega)
      exact h.not_isOuter_of_close hm ho
    rw [close]
    cases hr : list.rest with
    | none =>
      rw [hr] at h htext
      refine ⟨nofun, fun ⟨hp, _⟩ => ?_⟩
      obtain ⟨inside, after, he, -, ho⟩ := outerAt_iff.mp hp
      rw [tail, List.append_nil] at htext
      exact absurd ho (h.not_isOuter_of_close (htext.symm.trans he))
    | some behind =>
      rw [hr] at h htext
      have hclose : OuterAt (front ++ text) (width front) ')' list.stop :=
        outerAt_iff.mpr ⟨_, behind, htext, hs, h.isOuter_joined⟩
      constructor
      · intro hp
        obtain rfl := Option.some.inj hp
        exact ⟨hclose, fun other hlt => hbefore hlt⟩
      · rintro ⟨hp, hfirst⟩
        have hle : list.stop ≤ place := not_lt.mp fun hlt => hbefore hlt hp
        have hge : place ≤ list.stop := not_lt.mp fun hlt => hfirst list.stop hlt hclose
        exact congrArg some (le_antisymm hle hge)
  case commas =>
    intro place
    rw [h.exists_mem_dropLast_iff, outerAt_iff, hs]
    constructor
    · rintro ⟨inside, after, he, rfl, ho⟩
      have hsize : ','.utf8Size = 1 := rfl
      refine ⟨?_, inside, after ++ tail list.rest, ?_, rfl, ho⟩
      · rw [he, width_append, width_cons]
        omega
      · rw [htext, he, List.append_assoc, List.cons_append]
    · rintro ⟨hlt, inside, after, he, rfl, ho⟩
      obtain ⟨more, hm⟩ := exists_of_width_lt (he.symm.trans htext) (by omega)
      exact ⟨inside, more, hm, rfl, ho⟩

def placed : Nat → List (List Char) → List Argument
  | _, [] => []
  | start, piece :: rest => ⟨piece, start⟩ :: placed (start + width piece + 1) rest

private theorem map_text_placed (start : Nat) (pieces : List (List Char)) :
    (placed start pieces).map (·.text) = pieces := by
  induction pieces generalizing start with
  | nil => rfl
  | cons piece pieces ih => rw [placed, List.map_cons, ih]

/-- Pieces in which nothing stays open divide their list. -/
private theorem divided_placed {pieces : List (List Char)} (hne : pieces ≠ [])
    (h : ∀ piece ∈ pieces, IsPlain piece ∧ IsOuter piece) (start : Nat) (behind : List Char) :
    Divided (some behind) start ([','].intercalate pieces ++ ')' :: behind)
      (placed start pieces) := by
  induction pieces generalizing start with
  | nil => exact absurd rfl hne
  | cons piece pieces ih =>
    obtain ⟨hplain, houter⟩ := h piece List.mem_cons_self
    cases pieces with
    | nil => simpa [placed] using @Divided.closed start piece behind hplain houter
    | cons next pieces =>
      rw [List.intercalate_cons_cons, List.append_assoc, List.append_assoc]
      exact .comma hplain houter
        (ih (List.cons_ne_nil _ _) (fun other ho => h other (List.mem_cons_of_mem _ ho)) _)

private theorem readAt_append (front text : List Char) :
    readAt (front ++ text) (width front) = read (width front) text := by
  rw [readAt, cut_width]

/-- A list that is read from an offset between characters is divided at its outer commas. At least
one piece, each of which meets no comma and no closing parenthesis with nothing open and leaves
nothing open, is read back with the others, at their offsets and up to their parenthesis. -/
theorem readAt_joined :
    (∀ (text : List Char) (start : Nat), IsBoundary text start →
      IsDivision text start (readAt text start)) ∧
    ∀ (front behind : List Char) (pieces : List (List Char)), pieces ≠ [] →
      (∀ piece ∈ pieces, IsPlain piece ∧ IsOuter piece) →
      let start := width (front ++ ['('])
      let stop := start + width ([','].intercalate pieces)
      let list := readAt (front ++ ['('] ++ [','].intercalate pieces ++ ')' :: behind) start
      list.arguments = placed start pieces ∧ list.close = some stop ∧ list.stop = stop := by
  constructor
  · intro text start h
    obtain ⟨front, rest, rfl, rfl⟩ : ∃ front rest, text = front ++ rest ∧ start = width front :=
      ⟨_, _, (cut_append start text).symm, h.symm⟩
    rw [readAt_append]
    exact (read_divided _ _).isDivision (resume_stop_eq 0 false '(' _ _)
  · intro front behind pieces hne h start stop list
    have hlist : list = read start ([','].intercalate pieces ++ ')' :: behind) := by
      change readAt _ _ = _
      rw [List.append_assoc, readAt_append]
    obtain ⟨hrest, harguments⟩ := (read_divided start _).unique (divided_placed hne h start behind)
    have hstop : list.stop = stop := by
      rw [hlist]
      refine (resume_stop_eq 0 false '(' start _).trans ?_
      rw [← read, harguments, joined, map_text_placed]
    refine ⟨hlist ▸ harguments, ?_, hstop⟩
    rw [close, ← hstop, hlist, hrest]
    rfl

theorem readAt_joined_sample :
    IsDivision "é(a,\"b,)\",c\\)d".toList 3 (readAt "é(a,\"b,)\",c\\)d".toList 3) ∧
    (readAt ("é(a,\"b,)\",c\\)d".toList) 3).arguments =
      placed 3 ["a".toList, "\"b,)\"".toList, "c\\".toList] := by
  constructor
  · exact readAt_joined.1 _ 3 (by decide)
  · exact (readAt_joined.2 "é".toList "d".toList
      ["a".toList, "\"b,)\"".toList, "c\\".toList] (by decide) (by decide)).1

end ArgumentList
end SceneFormula.Source
