import Mathlib.Data.List.TakeWhile
import Mathlib.Data.Option.Basic
import SceneFormula.Json.Reader
import SceneFormula.Json.Writer

/-! Reading back what was written. Values whose numbers are natural ones are given back by the text
that they are written as, whatever characters their strings hold. -/
namespace SceneFormula

namespace Source

/-- The value of the digits of a number is that number. -/
@[simp] theorem digitsValue_digits (n : Nat) : digitsValue (digits n) = n := by
  have h : Nat.ofDigitChars 10 (digits n) 0 = n :=
    Nat.ofDigitChars_toDigits (by decide) (by decide)
  simpa only [digitsValue, Nat.ofDigitChars, Nat.mul_comm] using h

theorem isDigit_of_mem_digits {n : Nat} {c : Char} (h : c ∈ digits n) : c.isDigit = true :=
  Nat.isDigit_of_mem_toDigits (by decide) (by decide) h

theorem digits_ne_nil (n : Nat) : digits n ≠ [] :=
  Nat.toDigits_ne_nil

theorem digits_zero : digits 0 = ['0'] := rfl

/-- The digits of a number that is not zero start with no zero. -/
theorem head?_digits_ne {n : Nat} (h : n ≠ 0) : (digits n).head? ≠ some '0' := by
  induction n using Nat.strongRecOn with
  | ind n ih =>
    rw [digits, Nat.toDigits_eq_if (by decide)]
    split
    · rename_i hn
      have hall : ∀ d < 10, d ≠ 0 → [Nat.digitChar d].head? ≠ some '0' := by decide
      exact hall n hn h
    · have hquotient := ih (n / 10) (by omega) (by omega)
      rw [digits] at hquotient
      rwa [List.head?_append, Option.or_of_isSome (by simp [Nat.toDigits_ne_nil])]

end Source

namespace StringUnit

theorem isHigh_or_isLow_iff {code : Nat} :
    (isHigh code || isLow code) = true ↔ 0xD800 ≤ code ∧ code < 0xE000 := by
  simp only [isHigh, isLow, Bool.or_eq_true, Bool.and_eq_true, decide_eq_true_eq]
  omega

def Proper : StringUnit → Prop
  | char _ => True
  | half code => (isHigh code || isLow code) = true

theorem proper_of_mem_ofText {text : List Char} {unit : StringUnit} (h : unit ∈ ofText text) :
    unit.Proper := by
  obtain ⟨c, -, rfl⟩ := List.mem_map.mp h
  trivial

end StringUnit

namespace Json

section Strings

theorem hexCode?_hexDigits {code : Nat} (h : code < 65536) :
    hexCode? (hexDigits code) = some code := by
  have hdigit : ∀ d < 16, hexValue? (Nat.digitChar d) = some d := by decide
  simp only [hexDigits, hexCode?, List.map_cons, List.map_nil, List.foldlM_cons, List.foldlM_nil,
    hdigit _ (Nat.mod_lt _ (by decide)), Option.map_some, Option.bind_eq_bind, Option.bind_some,
    Option.pure_def]
  congr 1
  omega

/-- A code that is escaped is read back. -/
private theorem readUnits_escape {code : Nat} (h : code < 65536) (rest : List Char) :
    readUnits ('\\' :: 'u' :: hexDigits code ++ rest) =
      (readUnits rest).map fun (units, rest) => (.ofCode code :: units, rest) := by
  have hcode := hexCode?_hexDigits h
  simp only [hexDigits, List.map_cons, List.map_nil, List.cons_append, List.nil_append] at hcode ⊢
  rw [readUnits, hcode]
  cases readUnits rest <;> rfl

/-- A character is read back, whether it is escaped or stands for itself. -/
private theorem readUnits_writeChar (c : Char) (rest : List Char) :
    readUnits (writeChar c ++ rest) =
      (readUnits rest).map fun (units, rest) => (.char c :: units, rest) := by
  unfold writeChar
  split_ifs with hquote hbackslash hb hf hn hr ht hcontrol
  -- the escapes of one letter
  iterate 7
    subst c
    simp only [List.cons_append, List.nil_append]
    rw [readUnits]
    · cases readUnits rest <;> rfl
    · simp
  · have hcode : c.toNat < 32 := Char.lt_def.mp hcontrol
    have hwhole : ¬ (StringUnit.isHigh c.toNat || StringUnit.isLow c.toNat) = true := fun h =>
      absurd (StringUnit.isHigh_or_isLow_iff.mp h).1 (by omega)
    rw [readUnits_escape (by omega), StringUnit.ofCode, if_neg hwhole, Char.ofNat_toNat]
  · rw [List.singleton_append, readUnits]
    · have hguard : (guard (c ≠ '\\' ∧ ' ' ≤ c) : Option Unit) = some () :=
        if_pos ⟨hbackslash, Char.not_lt.mp hcontrol⟩
      rw [hguard]
      cases readUnits rest <;> rfl
    all_goals simp_all

/-- The units of a string are read back, up to its closing quote. -/
theorem readUnits_write {units : List StringUnit} (h : ∀ unit ∈ units, unit.Proper)
    (rest : List Char) :
    readUnits (units.flatMap writeUnit ++ '"' :: rest) = some (units, rest) := by
  induction units with
  | nil => rw [List.flatMap_nil, List.nil_append, readUnits]
  | cons unit units ih =>
    have hunits := ih fun other ho => h other (List.mem_cons_of_mem _ ho)
    rw [List.flatMap_cons, List.append_assoc]
    cases unit with
    | char c => rw [writeUnit, readUnits_writeChar, hunits, Option.map_some]
    | half code =>
      have hhalf : (StringUnit.isHigh code || StringUnit.isLow code) = true :=
        h _ List.mem_cons_self
      have hcode : code < 65536 := (StringUnit.isHigh_or_isLow_iff.mp hhalf).2.trans (by decide)
      rw [writeUnit, readUnits_escape hcode, hunits, Option.map_some, StringUnit.ofCode,
        if_pos hhalf]

end Strings

section Numbers

private theorem not_isDigit_of_isBlank {c : Char} (h : isBlank c = true) : c.isDigit = false := by
  simp only [isBlank, Bool.or_eq_true, beq_iff_eq] at h
  rcases h with ((rfl | rfl) | rfl) | rfl <;> rfl

/-- A number starts with a digit. -/
private theorem exists_digits_eq_cons (n : Nat) :
    ∃ c text, Source.digits n = c :: text ∧ c.isDigit = true ∧ isBlank c = false := by
  obtain ⟨c, text, hdigits⟩ := List.exists_cons_of_ne_nil (Source.digits_ne_nil n)
  have hc := Source.isDigit_of_mem_digits (hdigits ▸ List.mem_cons_self)
  refine ⟨c, text, hdigits, hc, Bool.eq_false_iff.mpr fun hb => ?_⟩
  exact absurd (hc.symm.trans (not_isDigit_of_isBlank hb)) nofun

/-- What follows a value in a text: the end, or a mark of the list or object that it stands in. -/
inductive Follows : List Char → Prop
  | done : Follows []
  | comma (rest : List Char) : Follows (',' :: rest)
  | bracket (rest : List Char) : Follows (']' :: rest)
  | brace (rest : List Char) : Follows ('}' :: rest)

variable {rest : List Char}

private theorem Follows.takeWhile (h : Follows rest) :
    rest.takeWhile Char.isDigit = [] ∧ rest.dropWhile Char.isDigit = rest := by
  cases h <;> exact ⟨rfl, rfl⟩

private theorem readFraction_of_follows (h : Follows rest) :
    readFraction rest = some ([], rest) := by
  cases h <;> rfl

private theorem readExponent_of_follows (h : Follows rest) :
    readExponent rest = some ([], rest) := by
  cases h <;> rfl

/-- The digits of a number are read up to what follows. -/
private theorem readWhole_digits (n : Nat) (h : Follows rest) :
    readWhole (Source.digits n ++ rest) = some (Source.digits n, rest) := by
  by_cases hn : n = 0
  · rw [hn, Source.digits_zero]
    rfl
  · obtain ⟨htake, hdrop⟩ := h.takeWhile
    obtain ⟨d, more, hdigits⟩ := List.exists_cons_of_ne_nil (Source.digits_ne_nil n)
    have hzero := Source.head?_digits_ne hn
    have hall : ∀ c ∈ Source.digits n, c.isDigit = true := fun c => Source.isDigit_of_mem_digits
    rw [hdigits] at hzero hall ⊢
    rw [readWhole.eq_def, List.cons_append]
    split
    · rename_i hd
      exact absurd (congrArg List.head? hd) hzero
    · rw [← List.cons_append, readDigits, List.takeWhile_append_of_pos hall,
        List.dropWhile_append_of_pos hall, htake, hdrop, List.append_nil]

theorem readNumber_digits (n : Nat) (h : Follows rest) :
    readNumber (Source.digits n ++ rest) = some (.number (Source.digits n), rest) := by
  have hunsigned : readUnsigned (Source.digits n ++ rest) = some (Source.digits n, rest) := by
    rw [readUnsigned, readWhole_digits n h]
    simp only [Option.bind_eq_bind, Option.bind_some, readFraction_of_follows h,
      readExponent_of_follows h, List.append_nil]
  rw [readNumber.eq_def]
  split
  · rename_i behind hminus
    obtain ⟨c, text, hdigits, hc, -⟩ := exists_digits_eq_cons n
    rw [hdigits, List.cons_append] at hminus
    rw [(List.cons.inj hminus).1] at hc
    exact absurd hc (by decide)
  · rw [hunsigned]
    rfl

end Numbers

mutual
/-- The numbers in a value are natural ones, and all units of its strings are proper. -/
def Plain : Json → Prop
  | null | bool _ => True
  | number literal => ∃ n, literal = Source.digits n
  | string units => ∀ unit ∈ units, unit.Proper
  | array items => AllPlain items
  | object members => MembersPlain members

def AllPlain : List Json → Prop
  | [] => True
  | item :: rest => item.Plain ∧ AllPlain rest

def MembersPlain : List (List StringUnit × Json) → Prop
  | [] => True
  | (key, value) :: rest => (∀ unit ∈ key, unit.Proper) ∧ value.Plain ∧ MembersPlain rest
end

mutual
def depth : Json → Nat
  | null | bool _ | number _ | string _ => 1
  | array items => depthAll items + 1
  | object members => depthMembers members + 1

def depthAll : List Json → Nat
  | [] => 0
  | item :: rest => max item.depth (depthAll rest)

def depthMembers : List (List StringUnit × Json) → Nat
  | [] => 0
  | (_, value) :: rest => max value.depth (depthMembers rest)
end

theorem skipBlanks_cons {c : Char} (h : isBlank c = false) (text : List Char) :
    skipBlanks (c :: text) = c :: text :=
  List.dropWhile_cons_of_neg (by simp [h])

/-- A plain value starts with no blank, and with no bracket that closes a list. -/
private theorem exists_write_eq_cons {json : Json} (h : json.Plain) :
    ∃ c text, json.write = c :: text ∧ isBlank c = false ∧ c ≠ ']' := by
  cases json with
  | null => exact ⟨_, _, rfl, by decide, by decide⟩
  | bool value => cases value <;> exact ⟨_, _, rfl, by decide, by decide⟩
  | number literal =>
    obtain ⟨n, rfl⟩ := h
    obtain ⟨c, text, hdigits, hc, hblank⟩ := exists_digits_eq_cons n
    refine ⟨c, text, hdigits, hblank, ?_⟩
    rintro rfl
    exact absurd hc (by decide)
  | string units => exact ⟨_, _, rfl, by decide, by decide⟩
  | array items => exact ⟨_, _, rfl, by decide, by decide⟩
  | object members => exact ⟨_, _, rfl, by decide, by decide⟩

private theorem readValue_digits (inner : Reader Json) (n : Nat) {rest : List Char}
    (h : Follows rest) :
    readValue inner (Source.digits n ++ rest) = some (.number (Source.digits n), rest) := by
  obtain ⟨c, text, hdigits, hc, hblank⟩ := exists_digits_eq_cons n
  have hskip : skipBlanks (Source.digits n ++ rest) = Source.digits n ++ rest := by
    rw [hdigits, List.cons_append, skipBlanks_cons hblank]
  rw [readValue, hskip]
  split <;> rename_i hs
  -- no digit starts a word, a string, an array or an object
  iterate 6
    rw [hdigits] at hs
    obtain rfl := (List.cons.inj hs).1
    exact absurd hc (by decide)
  exact readNumber_digits n h

theorem allPlain_iff {items : List Json} : AllPlain items ↔ ∀ item ∈ items, item.Plain := by
  induction items with
  | nil => simp [AllPlain]
  | cons item items ih => rw [AllPlain, ih, List.forall_mem_cons]

theorem membersPlain_iff {members : List (List StringUnit × Json)} :
    MembersPlain members ↔
      ∀ member ∈ members, (∀ unit ∈ member.1, unit.Proper) ∧ member.2.Plain := by
  induction members with
  | nil => simp [MembersPlain]
  | cons member members ih => rw [MembersPlain, ih, List.forall_mem_cons, and_assoc]

theorem depth_le_depthAll {item : Json} {items : List Json} (h : item ∈ items) :
    item.depth ≤ depthAll items := by
  induction items with
  | nil => cases h
  | cons first items ih =>
    rw [depthAll]
    rcases List.mem_cons.mp h with rfl | h
    · exact Nat.le_max_left _ _
    · exact (ih h).trans (Nat.le_max_right _ _)

theorem depth_le_depthMembers {member : List StringUnit × Json}
    {members : List (List StringUnit × Json)} (h : member ∈ members) :
    member.2.depth ≤ depthMembers members := by
  induction members with
  | nil => cases h
  | cons first members ih =>
    rw [depthMembers]
    rcases List.mem_cons.mp h with rfl | h
    · exact Nat.le_max_left _ _
    · exact (ih h).trans (Nat.le_max_right _ _)

theorem writeItems_cons (item next : Json) (items : List Json) :
    writeItems (item :: next :: items) = item.write ++ ',' :: writeItems (next :: items) := by
  rw [writeItems]
  exact List.cons_ne_nil next items

theorem writeMembers_cons (key : List StringUnit) (value : Json) (next : List StringUnit × Json)
    (members : List (List StringUnit × Json)) :
    writeMembers ((key, value) :: next :: members) =
      writeString key ++ ':' :: value.write ++ ',' :: writeMembers (next :: members) := by
  rw [writeMembers]
  exact List.cons_ne_nil next members

def Reads (reader : Reader Json) (json : Json) : Prop :=
  ∀ rest, Follows rest → reader (json.write ++ rest) = some (json, rest)

section Lists
variable {reader : Reader Json}

/-- Items are read up to the bracket that closes them. -/
private theorem readItems_write {bound : Nat} {item : Json} {items : List Json}
    (h : ∀ each ∈ item :: items, Reads reader each) (hb : items.length < bound)
    (rest : List Char) :
    readItems reader bound (writeItems (item :: items) ++ ']' :: rest) =
      some (item :: items, rest) := by
  induction items generalizing item bound with
  | nil =>
    obtain ⟨bound, rfl⟩ := Nat.exists_eq_add_one.mpr hb
    rw [writeItems, readItems, h item List.mem_cons_self _ (.bracket rest)]
    rfl
  | cons next items ih =>
    obtain ⟨bound, rfl⟩ := Nat.exists_eq_add_one.mpr (Nat.zero_lt_of_lt hb)
    have hrest := ih (fun each he => h each (List.mem_cons_of_mem _ he))
      (Nat.lt_of_succ_lt_succ hb)
    have htext : writeItems (item :: next :: items) ++ ']' :: rest =
        item.write ++ ',' :: (writeItems (next :: items) ++ ']' :: rest) := by
      rw [writeItems_cons, List.append_assoc, List.cons_append]
    rw [htext, readItems, h item List.mem_cons_self _ (.comma _)]
    change (readItems reader bound _).bind _ = _
    rw [hrest]
    rfl

/-- A member is read up to what follows its value. -/
private theorem readMember_write {key : List StringUnit} {json : Json}
    (hk : ∀ unit ∈ key, unit.Proper) (h : Reads reader json) {rest : List Char}
    (hr : Follows rest) :
    readMember reader (writeString key ++ ':' :: (json.write ++ rest)) =
      some ((key, json), rest) := by
  have htext : writeString key ++ ':' :: (json.write ++ rest) =
      '"' :: (key.flatMap writeUnit ++ '"' :: ':' :: (json.write ++ rest)) := by
    simp [writeString]
  rw [htext]
  change (readUnits _).bind _ = _
  rw [readUnits_write hk]
  change (reader _).bind _ = _
  rw [h rest hr]
  rfl

/-- Members are read up to the brace that closes them. -/
private theorem readMembers_write {bound : Nat} {member : List StringUnit × Json}
    {members : List (List StringUnit × Json)}
    (hk : ∀ each ∈ member :: members, ∀ unit ∈ each.1, unit.Proper)
    (h : ∀ each ∈ member :: members, Reads reader each.2) (hb : members.length < bound)
    (rest : List Char) :
    readMembers reader bound (writeMembers (member :: members) ++ '}' :: rest) =
      some (member :: members, rest) := by
  obtain ⟨key, json⟩ := member
  have hkey := hk (key, json) List.mem_cons_self
  have hjson : Reads reader json := h (key, json) List.mem_cons_self
  induction members generalizing key json bound with
  | nil =>
    obtain ⟨bound, rfl⟩ := Nat.exists_eq_add_one.mpr hb
    rw [writeMembers, List.append_assoc, List.cons_append, readMembers,
      readMember_write hkey hjson (.brace rest)]
    rfl
  | cons next members ih =>
    obtain ⟨bound, rfl⟩ := Nat.exists_eq_add_one.mpr (Nat.zero_lt_of_lt hb)
    have hrest := ih (Nat.lt_of_succ_lt_succ hb) next.1 next.2
      (fun each he => hk each (List.mem_cons_of_mem _ he))
      (fun each he => h each (List.mem_cons_of_mem _ he))
      (hk next (by simp)) (h next (by simp))
    have htext : writeMembers ((key, json) :: next :: members) ++ '}' :: rest =
        writeString key ++ ':' :: (json.write ++ ',' :: (writeMembers (next :: members) ++
          '}' :: rest)) := by
      simp [writeMembers_cons]
    rw [htext, readMembers, readMember_write hkey hjson (.comma _)]
    change (readMembers reader bound _).bind _ = _
    rw [hrest]
    rfl

/-- A list of values is written in as many characters as it has values, or more. -/
private theorem length_le_writeItems {items : List Json} (h : ∀ item ∈ items, item.Plain) :
    items.length ≤ (writeItems items).length := by
  induction items with
  | nil => exact Nat.zero_le _
  | cons item items ih =>
    obtain ⟨c, text, hwrite, -⟩ := exists_write_eq_cons (h item List.mem_cons_self)
    have hitems := ih fun each he => h each (List.mem_cons_of_mem _ he)
    cases items with
    | nil => simp [writeItems, hwrite]
    | cons next items =>
      rw [writeItems_cons, hwrite]
      simp only [List.length_append, List.length_cons] at hitems ⊢
      omega

private theorem length_le_writeMembers (members : List (List StringUnit × Json)) :
    members.length ≤ (writeMembers members).length := by
  induction members with
  | nil => exact Nat.zero_le _
  | cons member members ih =>
    cases members with
    | nil => simp [writeMembers, writeString]
    | cons next members =>
      rw [writeMembers_cons]
      simp only [List.length_append, List.length_cons] at ih ⊢
      omega

/-- An array is read where its items are. -/
private theorem readArray_write {items : List Json} (hp : ∀ item ∈ items, item.Plain)
    (h : ∀ item ∈ items, Reads reader item) (rest : List Char) :
    readArray reader (writeItems items ++ ']' :: rest) = some (.array items, rest) := by
  cases items with
  | nil => rfl
  | cons item items =>
    have hlength := length_le_writeItems hp
    have hbound : items.length < (writeItems (item :: items) ++ ']' :: rest).length := by
      rw [List.length_append]
      exact Nat.lt_add_right _ hlength
    have hitems := readItems_write h hbound rest
    obtain ⟨c, text, hwrite, hblank, hbracket⟩ := exists_write_eq_cons (hp item List.mem_cons_self)
    obtain ⟨more, hfirst⟩ : ∃ more, writeItems (item :: items) ++ ']' :: rest = c :: more := by
      cases items <;> simp [writeItems, hwrite]
    rw [hfirst] at hitems ⊢
    rw [readArray, skipBlanks_cons hblank]
    split
    · rename_i hclosing
      exact absurd (List.cons.inj hclosing).1 hbracket
    · rw [hitems]
      rfl

/-- An object is read where its values are. -/
private theorem readObject_write {members : List (List StringUnit × Json)}
    (hk : ∀ member ∈ members, ∀ unit ∈ member.1, unit.Proper)
    (h : ∀ member ∈ members, Reads reader member.2) (rest : List Char) :
    readObject reader (writeMembers members ++ '}' :: rest) = some (.object members, rest) := by
  cases members with
  | nil => rfl
  | cons member members =>
    have hlength := length_le_writeMembers (member :: members)
    have hbound : members.length < (writeMembers (member :: members) ++ '}' :: rest).length := by
      rw [List.length_append]
      exact Nat.lt_add_right _ hlength
    have hmembers := readMembers_write hk h hbound rest
    obtain ⟨more, hfirst⟩ : ∃ more,
        writeMembers (member :: members) ++ '}' :: rest = '"' :: more := by
      cases members <;> simp [writeMembers, writeString]
    rw [hfirst] at hmembers ⊢
    rw [readObject, skipBlanks_cons (by decide), hmembers]
    rfl

end Lists

/-- With enough levels a plain value is read up to what follows. -/
theorem reads_levels {levels : Nat} {json : Json} (h : json.Plain) (hl : json.depth ≤ levels) :
    Reads (readLevels levels) json := by
  induction levels generalizing json with
  | zero => cases json <;> cases hl
  | succ levels ih =>
    intro rest hr
    cases json with
    | null => rfl
    | bool value => cases value <;> rfl
    | number literal =>
      obtain ⟨n, rfl⟩ := h
      exact readValue_digits (readLevels levels) n hr
    | string units =>
      have htext : (string units).write ++ rest =
          '"' :: (units.flatMap writeUnit ++ '"' :: rest) := by
        simp [write, writeString]
      rw [htext]
      change (readUnits _).bind _ = _
      rw [readUnits_write h]
      rfl
    | array items =>
      have hplain := allPlain_iff.mp h
      have htext : (array items).write ++ rest = '[' :: (writeItems items ++ ']' :: rest) := by
        simp [write]
      rw [htext]
      exact readArray_write hplain (fun item hi => ih (hplain item hi)
        ((depth_le_depthAll hi).trans (Nat.le_of_succ_le_succ hl))) rest
    | object members =>
      have hplain := membersPlain_iff.mp h
      have htext : (object members).write ++ rest =
          '{' :: (writeMembers members ++ '}' :: rest) := by
        simp [write]
      rw [htext]
      exact readObject_write (fun member hm => (hplain member hm).1)
        (fun member hm => ih (hplain member hm).2
          ((depth_le_depthMembers hm).trans (Nat.le_of_succ_le_succ hl))) rest

mutual
/-- A plain value is written in as many characters as it has levels, or more. -/
private theorem depth_le_length : ∀ json : Json, json.Plain → json.depth ≤ json.write.length
  | .null, _ => by decide
  | .bool true, _ => by decide
  | .bool false, _ => by decide
  | .number _, ⟨n, h⟩ => by
    rw [h, depth, write]
    exact List.length_pos_iff.mpr (Source.digits_ne_nil n)
  | .string units, _ => by
    rw [depth, write, writeString, List.cons_append, List.length_cons]
    exact Nat.succ_pos _
  | .array items, h => by
    have hitems := depthAll_le_length items h
    simp only [depth, write, List.length_append, List.length_cons]
    omega
  | .object members, h => by
    have hmembers := depthMembers_le_length members h
    simp only [depth, write, List.length_append, List.length_cons]
    omega

private theorem depthAll_le_length : ∀ items : List Json, AllPlain items →
    depthAll items ≤ (writeItems items).length
  | [], _ => Nat.zero_le _
  | [item], h => by
    have hitem := depth_le_length item h.1
    simp only [depthAll, writeItems]
    omega
  | item :: next :: items, h => by
    have hitem := depth_le_length item h.1
    have hitems := depthAll_le_length (next :: items) h.2
    rw [depthAll, writeItems_cons, List.length_append, List.length_cons]
    omega

private theorem depthMembers_le_length : ∀ members : List (List StringUnit × Json),
    MembersPlain members → depthMembers members ≤ (writeMembers members).length
  | [], _ => Nat.zero_le _
  | [(key, value)], h => by
    have hvalue := depth_le_length value h.2.1
    simp only [depthMembers, writeMembers, List.length_append, List.length_cons]
    omega
  | (key, value) :: next :: members, h => by
    have hvalue := depth_le_length value h.2.1
    have hmembers := depthMembers_le_length (next :: members) h.2.2
    rw [depthMembers, writeMembers_cons]
    simp only [List.length_append, List.length_cons]
    omega
end

/-- What a plain value is written as spells it. -/
theorem ofChars?_write {json : Json} (h : json.Plain) : ofChars? json.write = some json := by
  have hread := reads_levels h ((depth_le_length json h).trans (Nat.le_succ _)) [] .done
  rw [List.append_nil] at hread
  rw [ofChars?, hread]
  rfl

end Json
end SceneFormula
