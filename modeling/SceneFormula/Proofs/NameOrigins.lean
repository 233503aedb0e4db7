import SceneFormula.Proofs.Callees
import SceneFormula.Source.Search

namespace SceneFormula.Source

theorem length_bytes (text : List Char) : (bytes text).length = width text := by
  induction text with
  | nil => rfl
  | cons c text ih =>
    rw [bytes, List.flatMap_cons, List.length_append, String.length_utf8EncodeChar, width_cons,
      ← ih]
    rfl

theorem bytes_append (text more : List Char) : bytes (text ++ more) = bytes text ++ bytes more :=
  List.flatMap_append

/-- A byte below 128 is a character of its own. -/
theorem val_of_mem_utf8EncodeChar {c : Char} {b : UInt8} (h : b ∈ String.utf8EncodeChar c)
    (hb : b.toNat < 128) : c.val.toNat = b.toNat := by
  simp only [String.utf8EncodeChar] at h
  split at h
  · simp only [List.mem_singleton] at h
    rw [h, UInt8.toNat_ofNat']
    omega
  · split at h
    · simp only [List.mem_cons, List.not_mem_nil, or_false] at h
      rcases h with rfl | rfl <;> simp only [UInt8.toNat_ofNat'] at hb <;> omega
    · split at h
      · simp only [List.mem_cons, List.not_mem_nil, or_false] at h
        rcases h with rfl | rfl | rfl <;> simp only [UInt8.toNat_ofNat'] at hb <;> omega
      · simp only [List.mem_cons, List.not_mem_nil, or_false] at h
        rcases h with rfl | rfl | rfl | rfl <;> simp only [UInt8.toNat_ofNat'] at hb <;> omega

/-- The bytes of separators stand in no other character. -/
theorem mem_separators_of_byte {c : Char} {b : UInt8} (hs : b ∈ bytes separators)
    (hc : b ∈ String.utf8EncodeChar c) : c ∈ separators := by
  have hsmall : (bytes separators).all (·.toNat < 128) = true := by decide
  have hlt : b.toNat < 128 := by simpa using List.all_eq_true.mp hsmall b hs
  obtain ⟨s, hsep, hb⟩ := List.mem_flatMap.mp hs
  obtain rfl : c = s := Char.ext (UInt32.toNat_inj.mp
    ((val_of_mem_utf8EncodeChar hc hlt).trans (val_of_mem_utf8EncodeChar hb hlt).symm))
  exact hsep

theorem exists_byte_of_mem_separators {c : Char} (h : c ∈ separators) :
    ∃ b ∈ bytes separators, String.utf8EncodeChar c = [b] := by
  have hone : separators.all (fun s => (String.utf8EncodeChar s).length == 1) = true := by decide
  have hlength : (String.utf8EncodeChar c).length = 1 := by
    simpa using List.all_eq_true.mp hone c h
  obtain ⟨b, hb⟩ := List.length_eq_one_iff.mp hlength
  exact ⟨b, List.mem_flatMap.mpr ⟨c, h, hb ▸ List.mem_singleton_self b⟩, hb⟩

/-- Where the name that ends a text starts. -/
theorem nameOrigin_append (text more : List Char) :
    nameOrigin (text ++ more) separators (width text) = width (cutName separators text).1 := by
  obtain ⟨lead, name, hcut⟩ : ∃ lead name, cutName separators text = (lead, name) := ⟨_, _, rfl⟩
  have htext := cutName_append separators text
  have hname (c : Char) (h : c ∈ (cutName separators text).2) : c ∉ separators :=
    not_separator_of_mem_cutName h
  have hlead (c : Char) (h : (cutName separators text).1.getLast? = some c) : c ∈ separators :=
    getLast_cutName_mem c h
  rw [hcut] at htext hname hlead
  have hbefore : (bytes (text ++ more)).take (width text) = bytes lead ++ bytes name := by
    rw [bytes_append, ← length_bytes, List.take_left, ← htext, bytes_append]
  have hnone : (bytes name).reverse.findIdx? (bytes separators).contains = none := by
    rw [List.findIdx?_eq_none_iff]
    intro b hb
    obtain ⟨c, hc, hbc⟩ := List.mem_flatMap.mp (List.mem_reverse.mp hb)
    rw [Bool.eq_false_iff]
    exact fun hs => hname c hc (mem_separators_of_byte (by simpa using hs) hbc)
  simp only [nameOrigin, lastIndexOfAny?, hbefore, hcut, List.reverse_append,
    List.findIdx?_append, hnone, Option.none_or]
  rcases List.eq_nil_or_concat lead with rfl | ⟨init, c, rfl⟩
  · rfl
  · rw [List.concat_eq_append] at hlead ⊢
    obtain ⟨b, hb, hbytes⟩ := exists_byte_of_mem_separators (hlead c (by simp))
    have hc : bytes [c] = [b] := by simpa [bytes] using hbytes
    have hwidth : width [c] = 1 := by rw [← length_bytes, hc]; rfl
    rw [bytes_append, hc, List.reverse_append, List.reverse_singleton, List.singleton_append,
      List.findIdx?_cons, if_pos (by simpa using hb)]
    simp only [Option.map_some, Option.getD_some, List.length_append, List.length_reverse,
      length_bytes, List.length_singleton, width_append, hwidth]
    omega

theorem eq_nil_of_width {text : List Char} (h : width text = 0) : text = [] := by
  cases text with
  | nil => rfl
  | cons c text =>
    have hc := c.utf8Size_pos
    rw [width_cons] at h
    omega

/-- Two cuts of a text at one offset are the same. -/
theorem append_inj_of_width {text other rest more : List Char} (h : text ++ rest = other ++ more)
    (hw : width text = width other) : text = other ∧ rest = more := by
  have hcut := cut_width text rest
  rw [h, hw, cut_width] at hcut
  exact ⟨(Prod.mk.inj hcut).1.symm, (Prod.mk.inj hcut).2.symm⟩

/-- A name starts at the later of two offsets, where the text before it may begin and behind the
last separator, if it holds no separator and a separator or nothing stands in between. -/
theorem eq_max_nameOrigin_iff {front gap name more : List Char} :
    width (front ++ gap) = max (width front)
        (nameOrigin (front ++ gap ++ name ++ more) separators (width (front ++ gap ++ name))) ↔
      (∀ c ∈ name, c ∉ separators) ∧ ∀ c ∈ gap.getLast?, c ∈ separators := by
  rw [nameOrigin_append]
  constructor
  · intro h
    have htext := cutName_append separators (front ++ gap ++ name)
    have hplain (c : Char) (hc : c ∈ (cutName separators (front ++ gap ++ name)).2) :
        c ∉ separators := not_separator_of_mem_cutName hc
    have hlast (c : Char) (hc : (cutName separators (front ++ gap ++ name)).1.getLast? = some c) :
        c ∈ separators := getLast_cutName_mem c hc
    generalize (cutName separators (front ++ gap ++ name)).1 = lead at h htext hlast
    generalize (cutName separators (front ++ gap ++ name)).2 = own at htext hplain
    rcases Nat.lt_or_ge (width front) (width lead) with hlt | hle
    · rw [Nat.max_eq_right hlt.le] at h
      obtain ⟨rfl, rfl⟩ := append_inj_of_width htext h.symm
      refine ⟨hplain, fun c hc => hlast c ?_⟩
      rw [List.getLast?_append, Option.mem_def.mp hc, Option.some_or]
    · rw [Nat.max_eq_left hle, width_append] at h
      obtain rfl := eq_nil_of_width (by omega : width gap = 0)
      refine ⟨fun c hc => hplain c ?_, by simp⟩
      rw [List.append_nil] at htext
      rcases List.append_eq_append_iff.mp htext with ⟨between, -, rfl⟩ | ⟨between, rfl, hname⟩
      · exact List.mem_append_right _ hc
      · rw [width_append] at hle
        obtain rfl := eq_nil_of_width (by omega : width between = 0)
        rwa [hname] at hc
  · rintro ⟨hname, hseam⟩
    rcases List.eq_nil_or_concat gap with rfl | ⟨init, c, rfl⟩
    · have hfront := cutName_append separators front
      have hcut : cutName separators (front ++ [] ++ name) =
          ((cutName separators front).1, (cutName separators front).2 ++ name) := by
        rw [List.append_nil, ← hfront, List.append_assoc, hfront]
        refine cutName_eq (fun c hc => ?_) fun c hc => getLast_cutName_mem c hc
        rcases List.mem_append.mp hc with hc | hc
        · exact not_separator_of_mem_cutName hc
        · exact hname c hc
      have hw := congrArg width hfront
      rw [width_append] at hw
      rw [hcut, List.append_nil]
      simp only
      omega
    · rw [List.concat_eq_append] at hseam ⊢
      have hcut : cutName separators (front ++ (init ++ [c]) ++ name) =
          (front ++ (init ++ [c]), name) :=
        cutName_eq hname fun d hd => hseam d (by simpa [List.getLast?_append] using hd)
      rw [hcut, width_append front]
      omega

end SceneFormula.Source
