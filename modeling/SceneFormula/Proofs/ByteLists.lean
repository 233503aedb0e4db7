import Mathlib.Data.Nat.PSub
import SceneFormula.Proofs.ByteOffsets
import SceneFormula.Proofs.Callees

/-! Argument lists and quoted texts, read byte by byte. The bytes of a character that is not one of
the marks pass by one after another, and none of them is taken for a mark. -/
namespace SceneFormula.Source
open ArgumentList (resume resume_cons first_resume move moveOutside)

structure ByteList where
  arguments : List Argument
  close : Option Nat
  stop : Nat

/-- Reads the bytes of a list from `position` on, `start` being where the argument at hand starts. A
parenthesis that is closed must have been opened, and every argument must be a slice. -/
def listFrom? (text : List Char) (level : Nat) (quoted : Bool) (previous : UInt8)
    (start position : Nat) (found : List Argument) : List UInt8 → Option ByteList
  | [] => do
    let last ← slice? text start position
    pure ⟨found ++ [⟨last, min start position⟩], none, position⟩
  | b :: ahead =>
    let within := if b = '"'.toUInt8 ∧ previous ≠ '\\'.toUInt8 then !quoted else quoted
    if within then listFrom? text level within b start (position + 1) found ahead
    else if b = ')'.toUInt8 ∧ level = 0 then do
      let last ← slice? text start position
      pure ⟨found ++ [⟨last, min start position⟩], some position, position⟩
    else if b = '('.toUInt8 then
      listFrom? text (level + 1) within b start (position + 1) found ahead
    else if b = ')'.toUInt8 then do
      let lower ← level.ppred
      listFrom? text lower within b start (position + 1) found ahead
    else if b = ','.toUInt8 ∧ level = 0 then do
      let part ← slice? text start position
      listFrom? text level within b (position + 1) (position + 1) (found ++ [⟨part, start⟩]) ahead
    else listFrom? text level within b start (position + 1) found ahead

def listAt? (text : List Char) (start : Nat) : Option ByteList :=
  listFrom? text 0 false '('.toUInt8 start start [] ((bytes text).drop start)

theorem toUInt8_eq_iff {c d : Char} (hc : c.toNat < 128) (hd : d.toNat < 128) :
    c.toUInt8 = d.toUInt8 ↔ c = d := by
  constructor
  · intro h
    refine eq_of_mem_utf8EncodeChar hd ?_
    rw [utf8EncodeChar_of_lt hc, h]
    exact List.mem_singleton_self _
  · rintro rfl
    rfl

/-- A character below 128 is the one that ends in its byte. -/
private theorem getLast?_utf8EncodeChar {c d : Char} (hd : d.toNat < 128) :
    (String.utf8EncodeChar c).getLast? = some d.toUInt8 ↔ c = d := by
  constructor
  · exact fun h => eq_of_mem_utf8EncodeChar hd (List.mem_of_getLast? h)
  · rintro rfl
    rw [utf8EncodeChar_of_lt hd]
    rfl

/-- The bytes of a character that is no mark pass by. -/
private theorem listFrom?_skip {text : List Char} {level : Nat} {quoted : Bool} {start : Nat}
    {found : List Argument} {skipped : List UInt8} (hs : ∀ b ∈ skipped, 128 ≤ b.toNat)
    (previous : UInt8) (position : Nat) (ahead : List UInt8) :
    listFrom? text level quoted previous start position found (skipped ++ ahead) =
      listFrom? text level quoted (skipped.getLast?.getD previous) start
        (position + skipped.length) found ahead := by
  induction skipped generalizing previous position with
  | nil => rfl
  | cons b skipped ih =>
    have hb := hs b List.mem_cons_self
    have hne (d : Char) (hd : d.toNat < 128) : b ≠ d.toUInt8 := by
      rintro rfl
      rw [toNat_toUInt8 hd] at hb
      omega
    have hrest := ih (fun b hb => hs b (List.mem_cons_of_mem _ hb)) b (position + 1)
    have hlast : (b :: skipped).getLast?.getD previous = skipped.getLast?.getD b := by
      simp [List.getLast?_cons]
    rw [List.cons_append, listFrom?, hlast, List.length_cons,
      show position + (skipped.length + 1) = position + 1 + skipped.length by omega, ← hrest]
    simp only [hne '"' (by decide), hne ')' (by decide), hne '(' (by decide), hne ',' (by decide),
      false_and, if_false, ite_self]

/-- What the only byte of a character does is what that character does. -/
private theorem listFrom?_char {text : List Char} {previous c : Char} (hc : c.toNat < 128)
    {b : UInt8} (hb : b = '\\'.toUInt8 ↔ previous = '\\') (level : Nat) (quoted : Bool)
    (start position : Nat) (found : List Argument) (ahead : List UInt8) :
    listFrom? text level quoted b start position found (c.toUInt8 :: ahead) =
      match move level quoted previous c with
      | .keep level quoted =>
        listFrom? text level quoted c.toUInt8 start (position + 1) found ahead
      | .close => (slice? text start position).bind fun last =>
          some ⟨found ++ [⟨last, min start position⟩], some position, position⟩
      | .comma => (slice? text start position).bind fun part =>
          listFrom? text 0 false c.toUInt8 (position + 1) (position + 1) (found ++ [⟨part, start⟩])
            ahead := by
  have hiff (d : Char) (hd : d.toNat < 128) : c.toUInt8 = d.toUInt8 ↔ c = d := toUInt8_eq_iff hc hd
  rw [listFrom?, move]
  simp only [hiff _ (by decide : '"'.toNat < 128), hiff _ (by decide : ')'.toNat < 128),
    hiff _ (by decide : '('.toNat < 128), hiff _ (by decide : ','.toNat < 128), ne_eq, hb]
  generalize (if c = '"' ∧ ¬previous = '\\' then !quoted else quoted) = within
  cases within with
  | true => rfl
  | false =>
    rw [if_neg Bool.false_ne_true, if_neg Bool.false_ne_true]
    unfold moveOutside
    by_cases hopen : c = '('
    · subst hopen
      rfl
    by_cases hclose : c = ')'
    · subst hclose
      cases level <;> rfl
    · by_cases hcomma : c = ','
      · subst hcomma
        cases level <;> rfl
      · cases level <;> simp [hopen, hclose, hcomma]

/-- A character that is no mark belongs to the argument at hand. -/
private theorem move_of_le {c : Char} (h : 128 ≤ c.toNat) (level : Nat) (quoted : Bool)
    (previous : Char) : move level quoted previous c = .keep level quoted := by
  have hne (d : Char) (hd : d.toNat < 128) : c ≠ d := by
    rintro rfl
    omega
  rw [move, if_neg (fun hc : c = '"' ∧ _ => hne '"' (by decide) hc.1)]
  cases quoted with
  | true => rfl
  | false =>
    cases level <;>
      simp [moveOutside, hne '(' (by decide), hne ')' (by decide), hne ',' (by decide)]

/-- Reading the bytes finds what reading the characters does. `part` is what was read of the
argument at hand. -/
private theorem listFrom?_bytes {text front part rest : List Char}
    (ht : text = front ++ part ++ rest) {start stop : Nat} (hstart : start = width front)
    (hstop : stop = width (front ++ part)) (level : Nat) (quoted : Bool) {previous : Char}
    {b : UInt8} (hb : b = '\\'.toUInt8 ↔ previous = '\\') (found : List Argument) :
    listFrom? text level quoted b start stop found (bytes rest) =
      let list := resume level quoted previous stop rest
      some ⟨found ++ ⟨part ++ list.first.text, start⟩ :: list.others, list.close, list.stop⟩ := by
  have hslice : slice? text start stop = some part := slice?_eq ht hstart hstop
  have hmin : min start stop = start := by
    rw [hstart, hstop, width_append]
    omega
  induction rest generalizing front part start stop level quoted previous b found with
  | nil =>
    rw [show bytes [] = [] from rfl, listFrom?, hslice, hmin]
    simp only [resume, List.append_nil]
    rfl
  | cons c rest ih =>
    have hnext : text = front ++ (part ++ [c]) ++ rest := by
      rw [ht]
      simp
    have hwidth : stop + c.utf8Size = width (front ++ (part ++ [c])) := by
      simp only [hstop, width_append, width_cons, width_nil]
      omega
    have hkeep (level : Nat) (quoted : Bool) {last : UInt8}
        (hl : last = '\\'.toUInt8 ↔ c = '\\') :
        listFrom? text level quoted last start (stop + c.utf8Size) found (bytes rest) =
        let list := (resume level quoted c (stop + c.utf8Size) rest).push c stop
        some ⟨found ++ ⟨part ++ list.first.text, start⟩ :: list.others, list.close,
          list.stop⟩ := by
      rw [ih hnext hstart hwidth level quoted hl found (slice?_eq hnext hstart hwidth) (by omega)]
      simp [ArgumentList.push, ArgumentList.close]
    have hbytes : bytes (c :: rest) = String.utf8EncodeChar c ++ bytes rest := rfl
    rw [resume_cons]
    rcases Nat.lt_or_ge c.toNat 128 with hc | hc
    · have hsize := utf8Size_of_lt hc
      rw [hsize] at hkeep
      rw [hbytes, utf8EncodeChar_of_lt hc, List.singleton_append, listFrom?_char hc hb, hsize,
        hslice, hmin]
      have hlast := toUInt8_eq_iff hc (by decide : '\\'.toNat < 128)
      cases move level quoted previous c with
      | keep level quoted => exact hkeep level quoted hlast
      | close => simp [ArgumentList.close]
      | comma =>
        have hother : text = front ++ part ++ [c] ++ [] ++ rest := by
          rw [ht]
          simp
        have hone : stop + 1 = width (front ++ part ++ [c]) := by
          rw [width_append, ← hstop, width_cons, width_nil, hsize]
        have hempty : stop + 1 = width (front ++ part ++ [c] ++ []) := by
          rw [List.append_nil, hone]
        have h := ih hother hone hempty 0 false hlast (found ++ [⟨part, start⟩])
          (slice?_eq hother hone hempty) (Nat.min_self _)
        simp only [List.nil_append, first_resume, List.append_assoc] at h
        simpa [ArgumentList.pushEmpty, ArgumentList.close, ArgumentList.arguments] using h
    · have hpass : ∀ b ∈ String.utf8EncodeChar c, 128 ≤ b.toNat :=
        fun b hb => le_of_mem_utf8EncodeChar hc hb
      rw [hbytes, listFrom?_skip hpass, String.length_utf8EncodeChar, move_of_le hc]
      have hlast := List.getLast?_eq_some_getLast (@String.utf8EncodeChar_ne_nil c)
      have hslash := @getLast?_utf8EncodeChar c '\\' (by decide)
      rw [hlast, Option.some.injEq] at hslash
      rw [hlast, Option.getD_some]
      exact hkeep level quoted hslash

/-- A list that is read by its bytes is the one that is read by its characters. -/
theorem listAt?_append (front rest : List Char) :
    listAt? (front ++ rest) (width front) =
      let list := ArgumentList.read (width front) rest
      some ⟨list.arguments, list.close, list.stop⟩ := by
  have hempty : width front = width (front ++ []) := by rw [List.append_nil]
  have hmark : '('.toUInt8 = '\\'.toUInt8 ↔ '(' = '\\' := toUInt8_eq_iff (by decide) (by decide)
  have h := @listFrom?_bytes (front ++ rest) front [] rest (by rw [List.append_nil]) _ _ rfl hempty
    0 false _ _ hmark []
  rw [listAt?, drop_bytes_append, h]
  simp only [List.nil_append, first_resume]
  rfl

def closingQuote? (text : List Char) (start : Nat) : Option Nat :=
  match _h : indexOf? text '"' start with
  | none => none
  | some 0 => some 0
  | some (before + 1) =>
    if byteAt? text before = some '\\'.toUInt8 then closingQuote? text (before + 2)
    else some (before + 1)
termination_by width text - start
decreasing_by
  have := le_of_indexOfByte? _h
  omega

/-- The byte before an offset, told by the character before it. -/
theorem byteAt?_eq_some_iff {d : Char} (hd : d.toNat < 128) (front : List Char) (c : Char)
    (more : List Char) {before : Nat} (hb : before + 1 = width (front ++ [c])) :
    byteAt? (front ++ [c] ++ more) before = some d.toUInt8 ↔ c = d := by
  have hc := c.utf8Size_pos
  rw [width_append, width_cons, width_nil] at hb
  have hbytes : bytes [c] = String.utf8EncodeChar c := List.flatMap_singleton _ c
  have hlast : byteAt? (front ++ [c] ++ more) before = (String.utf8EncodeChar c).getLast? := by
    rw [byteAt?, bytes_append, bytes_append, hbytes, List.append_assoc,
      List.getElem?_append_right (by rw [length_bytes]; omega),
      List.getElem?_append_left (by rw [length_bytes, String.length_utf8EncodeChar]; omega),
      List.getLast?_eq_getElem?, length_bytes, String.length_utf8EncodeChar]
    congr 1
    omega
  rw [hlast]
  exact getLast?_utf8EncodeChar hd

/-- No list opens at the last byte of a text that ends in neither a space nor a parenthesis. -/
theorem listOpening?_last (front : List Char) {c : Char} (hs : c ≠ ' ') (hp : c ≠ '(') :
    listOpening? (front ++ [c]) (width (front ++ [c]) - 1) = none := by
  have hc := c.utf8Size_pos
  have hlast : width (front ++ [c]) - 1 + 1 = width (front ++ [c]) := by
    rw [width_append, width_cons]
    omega
  have hbyte {d : Char} (hd : d.toNat < 128) :
      byteAt? (front ++ [c]) (width (front ++ [c]) - 1) = some d.toUInt8 ↔ c = d := by
    have h := byteAt?_eq_some_iff hd front c [] hlast
    rwa [List.append_nil] at h
  have hspace := (hbyte (by decide : ' '.toNat < 128)).not.mpr hs
  have hparen := (hbyte (by decide : '('.toNat < 128)).not.mpr hp
  rw [byteAt?] at hspace hparen
  have hdrop : ((bytes (front ++ [c])).drop (width (front ++ [c]) - 1)).length = 1 := by
    rw [List.length_drop, length_bytes]
    omega
  obtain ⟨b, hb⟩ := List.length_eq_one_iff.mp hdrop
  have hget : (bytes (front ++ [c]))[width (front ++ [c]) - 1]? = some b := by
    rw [← List.head?_drop, hb]
    rfl
  rw [hget] at hspace hparen
  have hnot : (b == ' '.toUInt8) = false := beq_false_of_ne fun h => hspace (congrArg some h)
  simp only [listOpening?, hb]
  rw [List.takeWhile_cons_of_neg (by rw [hnot]; exact Bool.false_ne_true)]
  exact if_neg hparen

theorem splitQuoted_append {gap : List Char} (hg : '"' ∉ gap) (previous : Char)
    (text : List Char) :
    splitQuoted previous (gap ++ text) =
      (splitQuoted (gap.getLast?.getD previous) text).map fun (body, after) =>
        (gap ++ body, after) := by
  induction gap generalizing previous with
  | nil => simp
  | cons c gap ih =>
    have hc : ¬ (c = '"' ∧ previous ≠ '\\') := fun h => hg (h.1 ▸ List.mem_cons_self)
    have hlast : (c :: gap).getLast?.getD previous = gap.getLast?.getD c := by
      simp [List.getLast?_cons]
    rw [List.cons_append, splitQuoted, if_neg hc, ih (fun h => hg (List.mem_cons_of_mem _ h)),
      hlast, Option.map_map]
    rfl

/-- The quote that is found behind a character is the one that closes a text. -/
theorem closingQuote?_append (front : List Char) (previous : Char) (rest : List Char) :
    closingQuote? (front ++ [previous] ++ rest) (width (front ++ [previous])) =
      (splitQuoted previous rest).map fun (body, _) => width (front ++ [previous] ++ body) := by
  have hmarks := marks_char (by decide : '"'.toNat < 128)
  obtain ⟨gap, tail, hrest, -, -, hgap, htail⟩ := exists_cut (· == '"') rest
  have hg : '"' ∉ gap := fun h => absurd (hgap _ h) (by decide)
  rw [hrest, splitQuoted_append hg, closingQuote?]
  cases tail with
  | nil =>
    have hfound : indexOf? (front ++ [previous] ++ (gap ++ [])) '"'
        (width (front ++ [previous])) = none :=
      indexOfByte?_eq_none _ hmarks (by simpa using hgap)
    rw [hfound]
    rfl
  | cons mark more =>
    obtain rfl : mark = '"' := by simpa using htail mark rfl
    have hfound : indexOf? (front ++ [previous] ++ (gap ++ '"' :: more)) '"'
        (width (front ++ [previous])) = some (width (front ++ [previous] ++ gap)) :=
      indexOfByte?_append _ hmarks hgap (by decide) more
    obtain ⟨init, c, hinit, hc⟩ : ∃ init c, front ++ [previous] ++ gap = init ++ [c] ∧
        c = gap.getLast?.getD previous := by
      rcases List.eq_nil_or_concat gap with rfl | ⟨init, c, rfl⟩
      · exact ⟨front, previous, by simp, rfl⟩
      · exact ⟨front ++ [previous] ++ init, c, by simp, by simp⟩
    obtain ⟨before, hbefore⟩ : ∃ before, before + 1 = width (init ++ [c]) := by
      have := c.utf8Size_pos
      refine ⟨width (init ++ [c]) - 1, ?_⟩
      rw [width_append, width_cons]
      omega
    have hlength : more.length < rest.length := by
      rw [hrest, List.length_append, List.length_cons]
      omega
    have htext : front ++ [previous] ++ (gap ++ '"' :: more) = init ++ [c] ++ ['"'] ++ more := by
      rw [← hinit]
      simp
    have hbyte := byteAt?_eq_some_iff (by decide : '\\'.toNat < 128) init c
      (['"'] ++ more) hbefore
    rw [← List.append_assoc, ← htext] at hbyte
    rw [hinit, ← hbefore] at hfound
    rw [hfound, ← hc, splitQuoted]
    simp only [hbyte]
    by_cases hslash : c = '\\'
    · have hnext : before + 2 = width (init ++ [c] ++ ['"']) := by
        rw [width_append, ← hbefore]
        rfl
      have ih := closingQuote?_append (init ++ [c]) '"' more
      rw [if_pos hslash, if_neg (fun h => h.2 hslash), htext, hnext, ih, Option.map_map,
        Option.map_map]
      congr 1
      funext pair
      simp only [Function.comp_apply, ← List.append_assoc, hinit]
      simp
    · rw [if_neg hslash, if_pos ⟨trivial, hslash⟩, hbefore, ← hinit]
      simp
termination_by rest.length

end SceneFormula.Source
