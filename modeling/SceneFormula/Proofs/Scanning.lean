import SceneFormula.Proofs.Formulas
import SceneFormula.Proofs.Preceding
import SceneFormula.Proofs.Targets
import SceneFormula.Proofs.Weaving

/-! What is scanned in front of a text: the name of a builtin function with its parenthesis, a
decimal, whose point reads as the dot of a call, and the call of a function of the world. -/
namespace SceneFormula
open Arithmetic (isNamePart isReserved)
open Source (ArgumentList isBroken separators)

theorem plain_of_isNamePart {c : Char} (h : isNamePart c = true) :
    c ∉ separators ∧ Callee.isMark c = false ∧ Callee.endsMember c = false := by
  refine ⟨fun hc => ?_, ?_, ?_⟩
  · rw [not_isNamePart_of_separator hc] at h
    cases h
  · rw [← Bool.not_eq_true]
    intro hc
    rcases (by simpa [Callee.isMark] using hc : c = '.' ∨ c = '(') with rfl | rfl <;> cases h
  · rw [← Bool.not_eq_true]
    intro hc
    rcases (by simpa [Callee.endsMember] using hc : c = ' ' ∨ c = '(') with rfl | rfl <;> cases h

theorem not_isAlpha_of_isDigit {c : Char} (h : c.isDigit = true) : c.isAlpha = false := by
  rw [← Bool.not_eq_true]
  intro ha
  have hs : Arithmetic.isNameStart c = true := by simp [Arithmetic.isNameStart, ha]
  rw [Arithmetic.not_isDigit_of_isNameStart hs] at h
  cases h

theorem plain_of_isOwnerName {name : List Char} (h : isOwnerName name = true) :
    ∀ c ∈ Callable.encodeSpaces name, isNamePart c = true ∨ c = '~' := by
  intro c hc
  obtain ⟨d, hd, rfl⟩ := List.mem_map.mp hc
  cases name with
  | nil => cases h
  | cons e name =>
    simp only [isOwnerName, Bool.and_eq_true, List.all_eq_true, Bool.or_eq_true, beq_iff_eq] at h
    rcases List.mem_cons.mp hd with rfl | hd
    · have hp : isNamePart d = true :=
        Arithmetic.isNamePart_of_isNameStart (by simp [Arithmetic.isNameStart, h.1])
      left
      rwa [if_neg]
      rintro rfl
      cases hp
    · rcases h.2 d hd with hp | rfl
      · left
        rwa [if_neg]
        rintro rfl
        cases hp
      · exact .inr rfl

/-- A space that is written `~` is read as a space again. -/
theorem decodeSpaces_encodeSpaces {name : List Char} (h : '~' ∉ name) :
    Source.decodeSpaces (Callable.encodeSpaces name) = name := by
  rw [Source.decodeSpaces, Callable.encodeSpaces, List.map_map]
  refine (List.map_congr_left fun c hc => ?_).trans (List.map_id name)
  by_cases hs : c = ' '
  · simp [hs]
  · have ht : c ≠ '~' := fun he => h (he ▸ hc)
    simp [hs, ht]

namespace World.Writable
variable {world : World} (hw : world.Writable)
include hw

/-- No function is without a name. -/
theorem function?_empty {kind : ResultKind} {scope : Scope} :
    world.function? kind scope "" = none := by
  cases h : world.function? kind scope "" with
  | none => rfl
  | some signature => cases hw.function h

/-- A function has no name of other characters. -/
theorem function?_eq_none {kind : ResultKind} {scope : Scope} {name : String} {c : Char}
    (hc : c ∈ name.toList) (hp : isNamePart c = false) :
    world.function? kind scope name = none := by
  cases h : world.function? kind scope name with
  | none => rfl
  | some signature =>
    rw [isNamePart_of_isIdentifier (hw.function h) c hc] at hp
    cases hp

/-- A name that no object can have has no functions. -/
theorem resolve_eq_none {kind : ResultKind} {owner name : String}
    (ho : isOwnerName owner.toList = false) : world.resolve kind (some owner) name = none := by
  have hobject : world.objectType? owner = none := by
    cases h : world.objectType? owner with
    | none => rfl
    | some type =>
      rw [hw.object h] at ho
      cases ho
  have hattached : ∀ type, type ∉ world.attached owner := by
    intro type h
    rw [hw.attached h] at ho
    cases ho
  have hcomponent : world.componentTarget? kind owner name = none := by
    unfold World.componentTarget?
    split
    · rfl
    · simp only
      split
      · rfl
      · split
        · rfl
        · rw [if_neg (hattached _)]
  rw [World.resolve, World.objectTarget?, hobject, hcomponent]
  rfl

end World.Writable

theorem not_isReserved_of_not_part {name : String} {c : Char} (hc : c ∈ name.toList)
    (hp : isNamePart c = false) : isReserved name = false := by
  rw [← Bool.not_eq_true]
  intro hr
  rw [isNamePart_of_isIdentifier (isIdentifier_of_isReserved hr) c hc] at hp
  cases hp

namespace Callable
variable {world : World} {callable : Callable} {target : Target}

def callee (callable : Callable) (behind : List Char) : Callee :=
  match callable.owner? with
  | none => ⟨[], callable.function.toList, none, '(' :: behind⟩
  | some owner => ⟨[], encodeSpaces owner.toList, some callable.function.toList, '(' :: behind⟩

theorem callee_text (callable : Callable) (behind : List Char) :
    (callable.callee behind).lead ++ (callable.callee behind).written ++
      (callable.callee behind).tail = callable.spelling ++ '(' :: behind := by
  cases callable <;> simp [callee, owner?, function, spelling, Callee.written]

theorem functionName_callee (callable : Callable) (behind : List Char) :
    Stretch.functionName (callable.callee behind) = callable.function.toList := by
  cases callable <;> rfl

structure Plain (callable : Callable) : Prop where
  owner {owner : String} (h : callable.owner? = some owner) : isOwnerName owner.toList = true
  function : ∀ c ∈ callable.function.toList, isNamePart c = true ∨ c = ':'

theorem plain (hw : world.Writable) (ht : callable.target? world = some target) :
    callable.Plain := by
  cases callable with
  | free name =>
    obtain ⟨signature, hf, -⟩ := Option.map_eq_some_iff.mp ht
    exact ⟨nofun, fun c hc => .inl (isNamePart_of_isIdentifier (hw.function hf) c hc)⟩
  | object owner name =>
    simp only [target?, World.objectTarget?] at ht
    split at ht
    · cases ht
    · rename_i type ho
      obtain ⟨signature, hf, -⟩ := Option.map_eq_some_iff.mp ht
      refine ⟨fun h => ?_, fun c hc => .inl (isNamePart_of_isIdentifier (hw.function hf) c hc)⟩
      obtain rfl := Option.some.inj h
      exact hw.object ho
  | component owner part name =>
    simp only [target?, World.componentTarget?] at ht
    split at ht
    · cases ht
    · rename_i front member hs
      split at ht
      · cases ht
      · rename_i type hc
        split at ht
        · cases ht
        · rename_i signature hf
          split at ht
          · rename_i ha
            refine ⟨fun h => ?_, fun c hm => ?_⟩
            · obtain rfl := Option.some.inj h
              exact hw.attached ha
            · rw [function, Source.splitComponent_eq hs] at hm
              have hfront := isNamePart_of_isIdentifier (hw.component hc) c
              have hmember := isNamePart_of_isIdentifier (hw.function hf) c
              rw [String.toList_ofList] at hfront hmember
              rcases List.mem_append.mp hm with hm | hm
              · exact .inl (hfront hm)
              · rcases List.mem_cons.mp hm with rfl | hm
                · exact .inr rfl
                · rcases List.mem_cons.mp hm with rfl | hm
                  · exact .inr rfl
                  · exact .inl (hmember hm)
          · cases ht

/-- What a call means is found, as the name of a component function is no name of a function. -/
theorem resolve_eq (hw : world.Writable) (ht : callable.target? world = some target) :
    world.resolve .number callable.owner? callable.function = some target := by
  cases callable with
  | free name => exact ht
  | object owner name => exact Option.or_eq_some_iff.mpr (.inl ht)
  | component owner part name =>
    refine Option.or_eq_some_iff.mpr (.inr ⟨?_, ht⟩)
    have hc : ':' ∈ (part ++ "::" ++ name).toList := by simp
    rw [World.objectTarget?]
    split
    · rfl
    · rw [function, hw.function?_eq_none hc rfl]
      rfl

def site (callable : Callable) (inside : List Char) : WrittenCall :=
  match callable.owner? with
  | none => ⟨callable.function.toList, none, inside⟩
  | some owner => ⟨encodeSpaces owner.toList, some (callable.function.toList, 0), inside⟩

variable (hw : world.Writable) (ht : callable.target? world = some target)
include hw ht

theorem splits (behind : List Char) :
    (callable.callee behind).Splits (callable.spelling ++ '(' :: behind) := by
  have hp := plain hw ht
  have hfunction : ∀ c ∈ callable.function.toList,
      c ∉ separators ∧ Callee.isMark c = false ∧ Callee.endsMember c = false := by
    intro c hc
    rcases hp.function c hc with h | rfl
    · exact plain_of_isNamePart h
    · decide
  have howner {owner : String} (ho : callable.owner? = some owner) :
      ∀ c ∈ encodeSpaces owner.toList, c ∉ separators ∧ Callee.isMark c = false := by
    intro c hc
    rcases plain_of_isOwnerName (hp.owner ho) c hc with h | rfl
    · exact ⟨(plain_of_isNamePart h).1, (plain_of_isNamePart h).2.1⟩
    · decide
  have htext := callee_text callable behind
  rw [callee] at htext ⊢
  cases ho : callable.owner? with
  | none =>
    rw [ho] at htext
    exact ⟨htext, fun c hc => (hfunction c hc).2.1, fun c hc => (hfunction c hc).1, nofun,
      fun _ => ⟨behind, rfl⟩, nofun⟩
  | some owner =>
    rw [ho] at htext
    refine ⟨htext, fun c hc => (howner ho c hc).2, fun c hc => (howner ho c hc).1, nofun, nofun,
      fun member hm => ?_⟩
    obtain rfl := Option.some.inj hm
    refine ⟨fun c hc => (hfunction c hc).2.2, fun c hc => ?_⟩
    obtain rfl := Option.some.inj hc
    rfl

theorem stretchTarget?_eq (hn : ∀ name ∈ callable.ownName?, isReserved name = false)
    (behind : List Char) :
    Stretch.target? world (callable.callee behind) = some target := by
  have hp := plain hw ht
  have hreserved : isReserved callable.function = false := by
    cases callable with
    | free name | object owner name => exact hn name rfl
    | component owner part name =>
      have hc : ':' ∈ (part ++ "::" ++ name).toList := by simp
      exact not_isReserved_of_not_part hc rfl
  have hreceiver : (callable.callee behind).receiver? = callable.owner? := by
    rw [callee]
    cases ho : callable.owner? with
    | none => rfl
    | some owner =>
      have htilde : '~' ∉ owner.toList := by
        intro hm
        have howner := hp.owner ho
        cases hl : owner.toList with
        | nil =>
          rw [hl] at howner
          cases howner
        | cons d name =>
          rw [hl] at hm howner
          simp only [isOwnerName, Bool.and_eq_true, List.all_eq_true] at howner
          rcases List.mem_cons.mp hm with rfl | hm
          · cases howner.1
          · cases howner.2 _ hm
      simp [Callee.receiver?, decodeSpaces_encodeSpaces htilde]
  simp only [Stretch.target?, functionName_callee, hreceiver, String.ofList_toList, hreserved,
    Bool.false_eq_true, if_false]
  exact resolve_eq hw ht

end Callable

/-- The place at which the point of a decimal reads as a dot, with the text up to the next end of a
name behind it. -/
private theorem splits_decimal {whole member tail : List Char}
    (hwhole : ∀ c ∈ whole, c.isDigit = true) (hm : ∀ c ∈ member, Callee.endsMember c = false)
    (ht : ∀ c ∈ tail.head?, Callee.endsMember c = true) :
    Callee.Splits (whole ++ '.' :: (member ++ tail)) ⟨[], whole, some member, tail⟩ := by
  have hplain : ∀ c ∈ whole, c ∉ separators ∧ Callee.isMark c = false := fun c hc =>
    have hp := plain_of_isNamePart (Arithmetic.isNamePart_of_isDigit (hwhole c hc))
    ⟨hp.1, hp.2.1⟩
  refine ⟨by simp [Callee.written], fun c hc => (hplain c hc).2, fun c hc => (hplain c hc).1, nofun,
    nofun, fun other ho => ?_⟩
  obtain rfl := Option.some.inj ho
  exact ⟨hm, ht⟩

/-- Digits name nothing that owns a function. -/
private theorem target?_digits {world : World} (hw : world.Writable) {whole : List Char}
    (hwhole : ∀ c ∈ whole, c.isDigit = true) (member tail : List Char) :
    Stretch.target? world ⟨[], whole, some member, tail⟩ = none := by
  rw [Stretch.target?]
  split
  · rfl
  · refine hw.resolve_eq_none ?_
    have hdecode : Source.decodeSpaces whole = whole := by
      refine (List.map_congr_left fun c hc => ?_).trans (List.map_id whole)
      rw [if_neg, id]
      rintro rfl
      cases hwhole _ hc
    rw [String.toList_ofList, hdecode]
    cases whole with
    | nil => rfl
    | cons c whole =>
      have hc : c.isAlpha = false := not_isAlpha_of_isDigit (hwhole c List.mem_cons_self)
      rw [isOwnerName, hc]
      rfl

namespace Rewrites
variable {world : World} {compilers : Compilers} {rest : List Char} {items : List Item}

/-- Where a name that starts behind a point is no broken one, it takes at most one separator from
the text behind the decimal, and that text is rewritten further on as it was. -/
private theorem of_reach {reach : List Char} {c : Char} (hw : world.Writable)
    (hk : Bounded (reach ++ c :: rest))
    (hreach : ∀ d ∈ reach.dropLast, d ∉ separators) (hc : c = ' ' ∨ c = '(')
    (hr : Rewrites world compilers (reach ++ c :: rest) items) :
    ∃ more, items = Item.chars (reach ++ [c]) ++ more ∧ Rewrites world compilers rest more := by
  have hfirst (b : Char) (hb : b = ' ' ∨ b = ')' ∨ b = ',') :
      b ∈ separators ∧ Callee.isMark b = false := by
    rcases hb with rfl | rfl | rfl <;> decide
  have hspace : (reach = [] ∨ ∃ b, reach = [b] ∧ b ∈ separators ∧ Callee.isMark b = false) := by
    match reach, hk, hreach with
    | [], _, _ => exact .inl rfl
    | [b], hk, _ => exact .inr ⟨b, rfl, hfirst b (hk b rfl)⟩
    | b :: d :: reach, hk, hreach =>
      exact absurd (hfirst b (hk b rfl)).1 (hreach b List.mem_cons_self)
  rcases hc with rfl | rfl
  · have hmarks : ∀ d ∈ reach ++ [' '], Callee.isMark d = false := by
      rcases hspace with rfl | ⟨b, rfl, -, hb⟩
      · simp [Callee.isMark]
      · intro d hd
        rcases List.mem_cons.mp hd with rfl | hd
        · exact hb
        · obtain rfl := List.mem_singleton.mp hd
          rfl
    refine of_preceded hmarks (fun d hd => ?_) (by simpa using hr)
    rw [List.getLast?_concat] at hd
    obtain rfl := Option.some.inj hd
    decide
  · rcases hspace with rfl | ⟨b, rfl, hb, hmark⟩
    · have := hk '(' rfl
      simp at this
    · exact of_openParen hw.function?_empty (by simpa using hmark) (by simpa using hb) hr

variable (h : Rewrites world compilers rest items)
include h

/-- The name of a builtin function is kept with its parenthesis. -/
theorem openBuiltin (function : Arithmetic.Builtin) :
    Rewrites world compilers (function.name.toList ++ '(' :: rest)
      (Item.chars (function.name.toList ++ ['(']) ++ items) := by
  have hplain := isNamePart_of_isIdentifier (isIdentifier_builtin function)
  refine openName [] function.name.toList (fun c hc => ?_) (fun c hc => ?_) nofun ?_ h
  · exact (plain_of_isNamePart (hplain c hc)).2.1
  · exact (plain_of_isNamePart (hplain c hc)).1
  · rw [Stretch.target?, Callee.functionName_open, String.ofList_toList, isReserved,
      Arithmetic.Builtin.ofName?_name]
    rfl

section Writable
variable (hw : world.Writable)
include hw

/-- A call of a function of the world is replaced. -/
theorem ofCallable {callable : Callable} {target : Target} {inside : List Char}
    {made : NumericCall} (ht : callable.target? world = some target)
    (hn : ∀ name ∈ callable.ownName?, isReserved name = false)
    (hl : (ArgumentList.read 0 (inside ++ ')' :: rest)).rest = some rest)
    (hc : Calls world compilers target
      (ArgumentList.trimmed (ArgumentList.read 0 (inside ++ ')' :: rest)).texts) made) :
    Rewrites world compilers (callable.spelling ++ '(' :: (inside ++ ')' :: rest))
      (.call (callable.site inside) made :: items) := by
  have hp := Callable.plain hw ht
  have hb : isBroken separators
      (Stretch.functionName (callable.callee (inside ++ ')' :: rest))) = false := by
    rw [Callable.functionName_callee]
    refine isBroken_eq_false fun c hm => ?_
    rcases hp.function c hm with hc | rfl
    · exact (plain_of_isNamePart hc).1
    · decide
  have ho : (callable.callee (inside ++ ')' :: rest)).tail =
      List.replicate 0 ' ' ++ '(' :: (inside ++ ')' :: rest) := by
    cases callable <;> rfl
  have hstep := Rewrites.call (Callee.next?_eq_some_iff.mpr (Callable.splits hw ht _)) hb
    (Callable.stretchTarget?_eq hw ht hn _) ho hl hc h
  have hlead : (callable.callee (inside ++ ')' :: rest)).lead = [] := by
    cases callable <;> rfl
  have hsite : (callable.callee (inside ++ ')' :: rest)).site 0 inside = callable.site inside := by
    cases callable <;> rfl
  rw [hlead, hsite] at hstep
  exact hstep

/-- A decimal is kept. -/
theorem decimal {whole fraction : List Char} (hwhole : ∀ c ∈ whole, c.isDigit = true)
    (hfraction : ∀ c ∈ fraction, c.isDigit = true) (hk : Bounded rest) :
    Rewrites world compilers (whole ++ '.' :: (fraction ++ rest))
      (Item.chars (whole ++ '.' :: fraction) ++ items) := by
  have hplain : ∀ c ∈ fraction, Callee.isMark c = false ∧ Callee.endsMember c = false := fun c hc =>
    (plain_of_isNamePart (Arithmetic.isNamePart_of_isDigit (hfraction c hc))).2
  -- The name behind the point runs on through the fraction to the next space or parenthesis.
  obtain ⟨reach, tail, rfl, -, -, hreach, htail⟩ := exists_cut Callee.endsMember rest
  have hs : Callee.Splits (whole ++ '.' :: (fraction ++ (reach ++ tail)))
      ⟨[], whole, some (fraction ++ reach), tail⟩ := by
    rw [← List.append_assoc fraction]
    refine splits_decimal hwhole (fun c hc => ?_) htail
    rcases List.mem_append.mp hc with hc | hc
    · exact (hplain c hc).2
    · exact hreach c hc
  have hnext := Callee.next?_eq_some_iff.mpr hs
  have ht := target?_digits hw hwhole (fraction ++ reach) tail
  cases tail with
  | nil =>
    have hp : '(' ∉ reach ++ [] := by
      intro hp
      rw [List.append_nil] at hp
      cases hreach _ hp
    obtain rfl := eq_chars h hp
    have hnil : Rewrites world compilers [] [] := .last rfl
    have hstep := Rewrites.name hnext rfl ht hnil
    simpa [Callee.written, Item.chars] using hstep
  | cons c tail =>
    have hname : Stretch.functionName ⟨[], whole, some (fraction ++ reach), c :: tail⟩ =
        fraction ++ reach := rfl
    cases hb : isBroken separators (fraction ++ reach) with
    | true =>
      have hr : Rewrites world compilers (fraction ++ reach ++ c :: tail)
          (Item.chars fraction ++ items) := by
        rw [List.append_assoc]
        exact preceded (fun d hd => (hplain d hd).1) (.inr hk) h
      have hstep := Rewrites.dot hnext hb hr
      simpa [Item.chars] using hstep
    | false =>
      have hc : c = ' ' ∨ c = '(' := by simpa [Callee.endsMember] using htail c rfl
      have hseparate : ∀ d ∈ reach.dropLast, d ∉ separators := by
        intro d hd hsep
        have hne : reach ≠ [] := by
          rintro rfl
          cases hd
        have hbroken : isBroken separators (fraction ++ reach) = true := by
          refine isBroken_eq_true_iff.mpr ⟨d, ?_, hsep⟩
          rw [List.dropLast_append_of_ne_nil hne]
          exact List.mem_append_right _ hd
        rw [hb] at hbroken
        cases hbroken
      obtain ⟨more, rfl, hm⟩ := of_reach hw hk hseparate hc h
      have hstep := Rewrites.name hnext hb ht hm
      simpa [Callee.written, Item.chars] using hstep

end Writable
end Rewrites
end SceneFormula
