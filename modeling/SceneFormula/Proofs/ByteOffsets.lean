import SceneFormula.Proofs.ArgumentLists
import SceneFormula.Proofs.NameOrigins

/-! Readings that can fail, and the offsets at which they cut a text. What is searched for are
single bytes that occur in no other character, so that every place that is found lies between two
characters. -/
namespace SceneFormula

/-- A reading whose operations can fail, apart from what it has to say of the text: `none` is the
failure of an operation. -/
abbrev Guarded (ε α : Type) :=
  ExceptT ε Option α

def Guarded.of {ε α : Type} (answer : Except ε α) : Guarded ε α :=
  some answer

namespace Guarded
variable {ε α β : Type}

@[simp] theorem of_ok_bind (value : α) (next : α → Guarded ε β) :
    (of (.ok value) >>= next) = next value := rfl

@[simp] theorem of_error_bind (fault : ε) (next : α → Guarded ε β) :
    (of (.error fault) >>= next) = of (.error fault) := rfl

@[simp] theorem liftM_some_bind (value : α) (next : α → Guarded ε β) :
    ((liftM (some value) : Guarded ε α) >>= next) = next value := rfl

@[simp] theorem adapt_of {ε' : Type} (change : ε → ε') (answer : Except ε α) :
    ExceptT.adapt change (of answer) = of (answer.mapError change) := rfl

theorem pure_eq (value : α) : (pure value : Guarded ε α) = of (.ok value) := rfl

end Guarded

namespace Source

def IsBoundary (text : List Char) (offset : Nat) : Prop :=
  width (cut offset text).1 = offset

instance (text : List Char) (offset : Nat) : Decidable (IsBoundary text offset) :=
  inferInstanceAs (Decidable (_ = _))

def slice? (text : List Char) (start stop : Nat) : Option (List Char) :=
  if start ≤ stop ∧ stop ≤ width text ∧ IsBoundary text start ∧ IsBoundary text stop then
    some (between text start stop)
  else none

theorem isBoundary_append (before after : List Char) :
    IsBoundary (before ++ after) (width before) := by
  rw [IsBoundary, cut_width]

theorem slice?_append (before part after : List Char) :
    slice? (before ++ part ++ after) (width before) (width (before ++ part)) = some part := by
  have hstart : IsBoundary (before ++ part ++ after) (width before) := by
    rw [List.append_assoc]
    exact isBoundary_append before (part ++ after)
  have hin : width before ≤ width (before ++ part) ∧
      width (before ++ part) ≤ width (before ++ part ++ after) := by
    simp only [width_append]
    omega
  rw [slice?, if_pos ⟨hin.1, hin.2, hstart, isBoundary_append _ after⟩, between, cut_width,
    cut_width]

/-- A slice told by the parts of the text. -/
theorem slice?_eq {text before part after : List Char} {start stop : Nat}
    (ht : text = before ++ part ++ after) (hs : start = width before)
    (hp : stop = width (before ++ part)) : slice? text start stop = some part := by
  rw [ht, hs, hp]
  exact slice?_append before part after

example : slice? ['é', 'a'] 0 2 = some ['é'] ∧ slice? ['é', 'a'] 1 3 = none := by decide

/-- A slice has no more bytes than the text. -/
theorem width_le_of_slice? {text part : List Char} {start stop : Nat}
    (h : slice? text start stop = some part) : width part ≤ width text := by
  rw [slice?] at h
  split at h
  · obtain rfl := Option.some.inj h
    have hbefore := congrArg width (cut_append stop text)
    have hpart := congrArg width (cut_append start (cut stop text).1)
    rw [width_append] at hbefore hpart
    rw [between]
    omega
  · cases h

theorem utf8EncodeChar_of_lt {c : Char} (h : c.toNat < 128) :
    String.utf8EncodeChar c = [c.toUInt8] := by
  have hc : c.val.toNat ≤ 127 := Nat.le_of_lt_succ h
  simp only [String.utf8EncodeChar, if_pos hc]
  rfl

theorem utf8Size_of_lt {c : Char} (h : c.toNat < 128) : c.utf8Size = 1 := by
  rw [← String.length_utf8EncodeChar, utf8EncodeChar_of_lt h]
  rfl

/-- Other characters have no byte below 128. -/
theorem le_of_mem_utf8EncodeChar {c : Char} (h : 128 ≤ c.toNat) {b : UInt8}
    (hb : b ∈ String.utf8EncodeChar c) : 128 ≤ b.toNat := by
  by_contra hlt
  have := val_of_mem_utf8EncodeChar hb (Nat.lt_of_not_le hlt)
  have hc : c.toNat = c.val.toNat := rfl
  omega

/-- Bytes of a kind are single characters of a kind, and stand in no others. -/
structure Marks (wanted : UInt8 → Bool) (p : Char → Bool) : Prop where
  single {c : Char} (h : p c = true) : ∃ b, String.utf8EncodeChar c = [b] ∧ wanted b = true
  other {c : Char} (h : p c = false) : ∀ b ∈ String.utf8EncodeChar c, wanted b = false

theorem toNat_toUInt8 {c : Char} (h : c.toNat < 128) : c.toUInt8.toNat = c.toNat := by
  change c.toNat % 256 = c.toNat
  omega

/-- The byte of a character below 128 stands in no other character. -/
theorem eq_of_mem_utf8EncodeChar {c d : Char} (hd : d.toNat < 128)
    (h : d.toUInt8 ∈ String.utf8EncodeChar c) : c = d := by
  have hlt : d.toUInt8.toNat < 128 := by rwa [toNat_toUInt8 hd]
  have hc : c.toNat = d.toUInt8.toNat := val_of_mem_utf8EncodeChar h hlt
  rw [toNat_toUInt8 hd] at hc
  exact Char.toNat_inj.mp hc

theorem marks_char {c : Char} (hc : c.toNat < 128) :
    Marks (fun b => (String.utf8EncodeChar c).head? == some b) (· == c) := by
  constructor
  · intro d hd
    obtain rfl : d = c := by simpa using hd
    refine ⟨d.toUInt8, utf8EncodeChar_of_lt hc, ?_⟩
    rw [utf8EncodeChar_of_lt hc]
    exact beq_self_eq_true _
  · intro d hd b hb
    rw [Bool.eq_false_iff] at hd ⊢
    intro hw
    rw [utf8EncodeChar_of_lt hc] at hw
    obtain rfl : c.toUInt8 = b := Option.some.inj (eq_of_beq hw)
    exact hd (beq_iff_eq.mpr (eq_of_mem_utf8EncodeChar hc hb))

theorem marks_set {set : List Char} (hs : ∀ c ∈ set, c.toNat < 128) :
    Marks (bytes set).contains set.contains := by
  constructor
  · intro c hc
    have hmem : c ∈ set := List.contains_iff_mem.mp hc
    have hbyte := utf8EncodeChar_of_lt (hs c hmem)
    refine ⟨c.toUInt8, hbyte, List.contains_iff_mem.mpr (List.mem_flatMap.mpr ⟨c, hmem, ?_⟩)⟩
    rw [hbyte]
    exact List.mem_singleton_self _
  · intro c hc b hb
    rw [Bool.eq_false_iff] at hc ⊢
    intro hw
    obtain ⟨s, hmem, hsb⟩ := List.mem_flatMap.mp (List.contains_iff_mem.mp hw)
    rw [utf8EncodeChar_of_lt (hs s hmem)] at hsb
    obtain rfl := List.mem_singleton.mp hsb
    exact hc (List.contains_iff_mem.mpr (eq_of_mem_utf8EncodeChar (hs s hmem) hb ▸ hmem))

section Searches
variable {wanted : UInt8 → Bool} {p : Char → Bool} (front : List Char)

theorem drop_bytes_append (text : List Char) :
    (bytes (front ++ text)).drop (width front) = bytes text := by
  rw [bytes_append, ← length_bytes, List.drop_left]

private theorem findIdx?_bytes_eq_none (hm : Marks wanted p) {text : List Char}
    (h : ∀ c ∈ text, p c = false) : (bytes text).findIdx? wanted = none := by
  rw [List.findIdx?_eq_none_iff]
  intro b hb
  obtain ⟨c, hc, hbc⟩ := List.mem_flatMap.mp hb
  exact hm.other (h c hc) b hbc

theorem indexOfByte?_eq_none (hm : Marks wanted p) {text : List Char}
    (h : ∀ c ∈ text, p c = false) :
    indexOfByte? wanted (front ++ text) (width front) = none := by
  rw [indexOfByte?, drop_bytes_append, findIdx?_bytes_eq_none hm h]
  rfl

/-- What is found is the first character of its kind. -/
theorem indexOfByte?_append (hm : Marks wanted p) {gap : List Char} {c : Char}
    (hg : ∀ c ∈ gap, p c = false) (hc : p c = true) (more : List Char) :
    indexOfByte? wanted (front ++ (gap ++ c :: more)) (width front) =
      some (width (front ++ gap)) := by
  obtain ⟨b, hb, hw⟩ := hm.single hc
  have hbytes : bytes (c :: more) = b :: bytes more := by
    rw [bytes, List.flatMap_cons, hb]
    rfl
  rw [indexOfByte?, drop_bytes_append, bytes_append, List.findIdx?_append,
    findIdx?_bytes_eq_none hm hg, hbytes, List.findIdx?_cons, if_pos hw]
  simp [length_bytes]

/-- What is found stands at or behind the start of the search, in the text. -/
theorem le_of_indexOfByte? {text : List Char} {start found : Nat}
    (h : indexOfByte? wanted text start = some found) : start ≤ found ∧ found < width text := by
  obtain ⟨i, hi, rfl⟩ := Option.map_eq_some_iff.mp h
  have hlt := (List.findIdx?_eq_some_iff_getElem.mp hi).choose
  rw [List.length_drop, length_bytes] at hlt
  omega

theorem head?_bytes_eq_some_iff {d : Char} (hd : d.toNat < 128) {text : List Char} :
    (bytes text).head? = some d.toUInt8 ↔ text.head? = some d := by
  cases text with
  | nil => simp [bytes]
  | cons c text =>
    rw [bytes, List.flatMap_cons, List.head?_cons, Option.some.injEq]
    constructor
    · intro h
      refine eq_of_mem_utf8EncodeChar hd ?_
      cases he : String.utf8EncodeChar c with
      | nil => exact absurd he String.utf8EncodeChar_ne_nil
      | cons b more =>
        rw [he] at h
        obtain rfl := Option.some.inj h
        exact List.mem_cons_self
    · rintro rfl
      rw [utf8EncodeChar_of_lt hd]
      rfl

private theorem listOpening?_spaces (spaces : Nat) {tail : List Char}
    (ht : tail.head? ≠ some ' ') :
    listOpening? (front ++ (List.replicate spaces ' ' ++ tail)) (width front) =
      if tail.head? = some '(' then some (width front + spaces) else none := by
  have hbytes : bytes (List.replicate spaces ' ' ++ tail) =
      List.replicate spaces ' '.toUInt8 ++ bytes tail := by
    rw [bytes_append]
    congr 1
    induction spaces with
    | zero => rfl
    | succ spaces ih => rw [List.replicate_succ, List.replicate_succ, ← ih]; rfl
  have hlength : ((List.replicate spaces ' '.toUInt8 ++ bytes tail).takeWhile
      (· == ' '.toUInt8)).length = spaces := by
    have hnone : (bytes tail).takeWhile (· == ' '.toUInt8) = [] := by
      rw [List.takeWhile_eq_nil_iff]
      intro hpos hb
      refine ht ((head?_bytes_eq_some_iff (by decide)).mp ?_)
      rw [List.head?_eq_getElem?, List.getElem?_eq_getElem hpos]
      exact congrArg some (eq_of_beq hb)
    rw [List.takeWhile_append_of_pos (by simp), hnone]
    simp
  simp only [listOpening?, drop_bytes_append, hbytes, hlength]
  rw [List.getElem?_append_right (by simp), List.length_replicate, Nat.sub_self,
    ← List.head?_eq_getElem?]
  simp only [head?_bytes_eq_some_iff (by decide : '('.toNat < 128)]

theorem listOpening?_append (spaces : Nat) (inside : List Char) :
    listOpening? (front ++ (List.replicate spaces ' ' ++ '(' :: inside)) (width front) =
      some (width front + spaces) := by
  rw [listOpening?_spaces front spaces (by simp)]
  rfl

/-- No list opens for the bytes where none opens for the characters. -/
theorem listOpening?_eq_none {offset : Nat} {text : List Char}
    (h : ArgumentList.open? offset text = none) :
    listOpening? (front ++ text) (width front) = none := by
  obtain ⟨spaces, tail, rfl, htail⟩ : ∃ spaces tail, text = List.replicate spaces ' ' ++ tail ∧
      tail.head? ≠ some ' ' := by
    refine ⟨(text.takeWhile (· == ' ')).length, text.dropWhile (· == ' '), ?_, ?_⟩
    · have hall : text.takeWhile (· == ' ') =
          List.replicate (text.takeWhile (· == ' ')).length ' ' :=
        List.eq_replicate_of_mem fun c hc => by simpa using List.mem_takeWhile_imp hc
      rw [← hall, List.takeWhile_append_dropWhile]
    · intro hs
      have := List.head?_dropWhile_not (· == ' ') text
      rw [hs] at this
      simp at this
  rw [listOpening?_spaces front spaces htail, if_neg]
  intro hopen
  cases tail with
  | nil => cases hopen
  | cons c inside =>
    obtain rfl : c = '(' := Option.some.inj hopen
    exact absurd (ArgumentList.open?_eq_some_iff.mpr ⟨spaces, inside, rfl, rfl⟩) (by rw [h]; simp)

end Searches
end Source
end SceneFormula
