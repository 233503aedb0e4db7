import SceneFormula.Proofs.Callees
import SceneFormula.Proofs.Rewriting

namespace SceneFormula
open Source (isBroken separators)

/-- Two ways to cut a text before the first character of a kind are one. -/
theorem append_unique {p : Char → Bool} {text other rest more : List Char}
    (ht : ∀ c ∈ text, p c = false) (ho : ∀ c ∈ other, p c = false)
    (hr : ∀ c ∈ rest.head?, p c = true) (hm : ∀ c ∈ more.head?, p c = true)
    (h : text ++ rest = other ++ more) : text = other ∧ rest = more := by
  induction text generalizing other with
  | nil =>
    cases other with
    | nil => exact ⟨rfl, h⟩
    | cons c other =>
      obtain rfl : rest = c :: (other ++ more) := h
      have hc := ho c List.mem_cons_self
      rw [hr c rfl] at hc
      cases hc
  | cons c text ih =>
    cases other with
    | nil =>
      obtain rfl : more = c :: (text ++ rest) := h.symm
      have hc := ht c List.mem_cons_self
      rw [hm c rfl] at hc
      cases hc
    | cons d other =>
      obtain ⟨rfl, hrest⟩ := List.cons.inj h
      obtain ⟨rfl, rfl⟩ := ih (fun d hd => ht d (List.mem_cons_of_mem _ hd))
        (fun d hd => ho d (List.mem_cons_of_mem _ hd)) hrest
      exact ⟨rfl, rfl⟩

theorem isBroken_eq_true_iff {name : List Char} :
    isBroken separators name = true ↔ ∃ c ∈ name.dropLast, c ∈ separators := by
  simp [isBroken]

theorem isBroken_eq_false {name : List Char} (h : ∀ c ∈ name, c ∉ separators) :
    isBroken separators name = false := by
  rw [← Bool.not_eq_true, isBroken_eq_true_iff]
  rintro ⟨c, hc, hsep⟩
  exact h c (List.dropLast_subset _ hc) hsep

/-- A separator behind a dot is one of the name behind it, where the name in front holds none. -/
private theorem isBroken_of_member {name member : List Char} (hn : ∀ c ∈ name, c ∉ separators)
    (h : isBroken separators (name ++ '.' :: member) = true) :
    isBroken separators member = true := by
  obtain ⟨c, hc, hsep⟩ := isBroken_eq_true_iff.mp h
  rcases List.eq_nil_or_concat member with rfl | ⟨init, last, rfl⟩
  · rw [List.dropLast_concat] at hc
    exact absurd hsep (hn c hc)
  · rw [List.concat_eq_append] at hc ⊢
    rw [← List.cons_append, ← List.append_assoc, List.dropLast_concat] at hc
    refine isBroken_eq_true_iff.mpr ⟨c, ?_, hsep⟩
    rw [List.dropLast_concat]
    rcases List.mem_append.mp hc with hc | hc
    · exact absurd hsep (hn c hc)
    · rcases List.mem_cons.mp hc with rfl | hc
      · exact absurd hsep (by decide)
      · exact hc

namespace Callee.Splits
variable {text : List Char} {callee : Callee}

/-- Only a name behind a dot can hold a separator. -/
theorem exists_member (hs : callee.Splits text)
    (hb : isBroken separators (Stretch.functionName callee) = true) :
    callee.tail ≠ [] ∧
      ∃ member, callee.member = some member ∧ isBroken separators member = true := by
  have htail : callee.tail ≠ [] := by
    intro ht
    simp [Stretch.functionName, ht, isBroken] at hb
  rw [Stretch.functionName, if_neg htail, Callee.function] at hb
  cases hm : callee.member with
  | none =>
    rw [hm, Option.getD_none, isBroken_eq_false hs.plain] at hb
    cases hb
  | some member =>
    rw [hm, Option.getD_some] at hb
    exact ⟨htail, member, rfl, hb⟩

/-- A name that goes on behind the first name of a text goes on there with a dot, and ends with the
name behind it. -/
theorem member_eq {member tail : List Char} (hs : callee.Splits (member ++ tail))
    (hl : callee.lead = []) (hends : ∀ c ∈ member, endsMember c = false)
    (hstop : ∀ c ∈ tail.head?, endsMember c = true) (hn : ¬ member <+: callee.name) :
    ∃ other, member = callee.name ++ '.' :: other ∧ callee.member = some other ∧
      callee.tail = tail := by
  have htext := hs.text
  rw [hl, List.nil_append, Callee.written, List.append_assoc] at htext
  rcases List.append_eq_append_iff.mp htext with ⟨a, hmember, hrest⟩ | ⟨a, hname, _⟩
  · cases a with
    | nil =>
      rw [List.append_nil] at hmember
      exact absurd (hmember ▸ List.prefix_rfl) hn
    | cons d a =>
      have hends2 : ∀ c ∈ d :: a, endsMember c = false :=
        fun c hc => hends c (hmember ▸ List.mem_append_right _ hc)
      cases hm : callee.member with
      | none =>
        obtain ⟨after, hafter⟩ := hs.bare hm
        rw [hm, Option.map_none, Option.getD_none, List.nil_append, hafter] at hrest
        obtain rfl : '(' = d := (List.cons.inj hrest).1
        cases hends2 '(' List.mem_cons_self
      | some other =>
        obtain ⟨hother, hostop⟩ := hs.member other hm
        rw [hm, Option.map_some, Option.getD_some] at hrest
        obtain ⟨rfl, hbehind⟩ := List.cons.inj hrest
        obtain ⟨rfl, htail⟩ := append_unique hother
          (fun c hc => hends2 c (List.mem_cons_of_mem _ hc)) hostop hstop hbehind
        exact ⟨other, hmember, rfl, htail⟩
  · exact absurd ⟨a, hname.symm⟩ hn

/-- Spaces stand before a list only where its function is named behind a dot. -/
theorem spaces_eq_zero (hs : callee.Splits text) (hm : callee.member = none) {spaces : Nat}
    {more : List Char} (ho : callee.tail = List.replicate spaces ' ' ++ '(' :: more) :
    spaces = 0 := by
  obtain ⟨after, ha⟩ := hs.bare hm
  cases spaces with
  | zero => rfl
  | succ n =>
    rw [ho, List.replicate_succ, List.cons_append] at ha
    cases ha

theorem lead_append_head (hs : callee.Splits text) {spaces : Nat} {more : List Char}
    (ho : callee.tail = List.replicate spaces ' ' ++ '(' :: more) (inside : List Char) :
    callee.lead ++ (callee.site spaces inside).head ++ more = text := by
  rw [← hs.text, ho]
  cases hm : callee.member with
  | none =>
    obtain rfl := hs.spaces_eq_zero hm ho
    simp [WrittenCall.head, site, written, hm]
  | some member => simp [WrittenCall.head, site, written, hm]

theorem site_member (hs : callee.Splits text) {spaces : Nat} {inside : List Char} :
    ∀ member count, (callee.site spaces inside).member = some (member, count) →
      ∀ c ∈ member, endsMember c = false := by
  intro member count hm
  obtain ⟨other, ho, he⟩ := Option.map_eq_some_iff.mp hm
  obtain ⟨rfl, rfl⟩ := Prod.mk.inj he
  exact (hs.member other ho).1

end Callee.Splits

/-- A call is replaced only where a separator, another call or the start of the text stands before
its name. The character before the items is given. -/
def Item.Seamed : Option Char → List Item → Prop
  | _, [] => True
  | _, .char c :: rest => Seamed (some c) rest
  | previous, .call _ _ :: rest => (∀ c ∈ previous, c ∈ separators) ∧ Seamed none rest

namespace Item

theorem seamed_chars_append {previous : Option Char} {text : List Char} {items : List Item} :
    Seamed previous (chars text ++ items) ↔ Seamed (text.getLast?.or previous) items := by
  induction text generalizing previous with
  | nil => rfl
  | cons c text ih =>
    change Seamed (some c) (chars text ++ items) ↔ _
    rw [ih]
    cases text with
    | nil => rfl
    | cons d text => simp [List.getLast?_cons]

theorem seamed_chars (previous : Option Char) (text : List Char) :
    Seamed previous (chars text) := by
  have h : Seamed previous (chars text ++ []) := seamed_chars_append.mpr trivial
  simpa using h

theorem Seamed.of_separator {previous : Option Char} {items : List Item} (h : Seamed none items)
    (hp : ∀ c ∈ previous, c ∈ separators) : Seamed previous items := by
  cases items with
  | nil => trivial
  | cons item items =>
    cases item with
    | char c => exact h
    | call site made => exact ⟨hp, h.2⟩

theorem Seamed.of_not_call {previous : Option Char} {items : List Item} (h : Seamed none items)
    (hn : ∀ site made more, items ≠ .call site made :: more) : Seamed previous items := by
  cases items with
  | nil => trivial
  | cons item items =>
    cases item with
    | char c => exact h
    | call site made => exact absurd rfl (hn site made items)

end Item

namespace Rewrites
variable {world : World} {compilers : Compilers} {text : List Char} {items : List Item}

theorem of_nil (h : Rewrites world compilers [] items) : items = [] := by
  cases h with
  | last => rfl
  | dot hn => cases hn
  | name hn => cases hn
  | call hn => cases hn

private theorem copied_ne_nil {callee : Callee} (hs : callee.Splits text) :
    callee.lead ++ callee.written ++ callee.tail.take 1 ≠ [] := by
  intro h
  obtain ⟨hlead, htail⟩ := List.append_eq_nil_iff.mp h
  cases hm : callee.member with
  | none =>
    obtain ⟨after, ha⟩ := hs.bare hm
    rw [ha] at htail
    cases htail
  | some member => simp [Callee.written, hm] at hlead

private theorem chars_append_ne_call {copied : List Char} (hc : copied ≠ []) {more rest : List Item}
    {site : WrittenCall} {made : NumericCall} :
    Item.chars copied ++ more ≠ .call site made :: rest := by
  obtain ⟨c, copied, rfl⟩ := List.exists_cons_of_ne_nil hc
  intro h
  cases h

/-- If a call starts a text, nothing stands before its name. -/
private theorem splits_of_call {site : WrittenCall} {made : NumericCall}
    (h : Rewrites world compilers text (.call site made :: items)) :
    ∃ callee, callee.Splits text ∧ callee.lead = [] ∧
      isBroken separators (Stretch.functionName callee) = false := by
  generalize he : Item.call site made :: items = all at h
  cases h with
  | last hn =>
    cases text with
    | nil => cases he
    | cons c text => cases he
  | dot hn hb hr => exact absurd he.symm (chars_append_ne_call (by simp))
  | @name _ callee _ hn hb ht hr =>
    have hs := Callee.next?_eq_some_iff.mp hn
    exact absurd he.symm (chars_append_ne_call (copied_ne_nil hs))
  | @call _ callee _ _ _ _ _ _ hn hb ht ho hl hc hr =>
    refine ⟨callee, Callee.next?_eq_some_iff.mp hn, ?_, hb⟩
    cases hl : callee.lead with
    | nil => rfl
    | cons c lead =>
      rw [hl] at he
      cases he

/-- No call starts where a name behind a dot holds a separator. -/
private theorem not_call_of_broken {callee : Callee} (hs : callee.Splits text)
    (hb : isBroken separators (Stretch.functionName callee) = true) {site : WrittenCall}
    {made : NumericCall}
    (h : Rewrites world compilers (callee.member.getD [] ++ callee.tail)
      (.call site made :: items)) : False := by
  obtain ⟨htail, member, hm, hbroken⟩ := hs.exists_member hb
  rw [hm, Option.getD_some] at h
  obtain ⟨hends, hstop⟩ := hs.member member hm
  obtain ⟨next, hsnext, hlead, hbnext⟩ := splits_of_call h
  obtain ⟨c, hc, hsep⟩ := isBroken_eq_true_iff.mp hbroken
  have hprefix : ¬ member <+: next.name := fun hp =>
    hsnext.plain c (hp.subset (List.dropLast_subset _ hc)) hsep
  -- The next name is in front of the next dot, so the separator is in the name behind that dot.
  obtain ⟨other, hmember, hm2, htail2⟩ := hsnext.member_eq hlead hends hstop hprefix
  rw [Stretch.functionName, if_neg (htail2 ▸ htail), Callee.function, hm2, Option.getD_some]
    at hbnext
  rw [hmember] at hbroken
  rw [isBroken_of_member hsnext.plain hbroken] at hbnext
  cases hbnext

/-- Every replaced call stands behind a separator, another call or nothing. -/
theorem seamed (h : Rewrites world compilers text items) : Item.Seamed none items := by
  induction h with
  | last => exact Item.seamed_chars _ _
  | dot hn hb hr ih =>
    refine Item.seamed_chars_append.mpr (ih.of_not_call ?_)
    rintro site made more rfl
    exact not_call_of_broken (Callee.next?_eq_some_iff.mp hn) hb hr
  | @name text callee items hn hb ht hr ih =>
    have hs := Callee.next?_eq_some_iff.mp hn
    refine Item.seamed_chars_append.mpr ?_
    cases htail : callee.tail with
    | nil =>
      rw [htail] at hr
      obtain rfl := of_nil hr
      trivial
    | cons c tail =>
      have hc : c ∈ separators := by
        cases hm : callee.member with
        | none =>
          obtain ⟨after, ha⟩ := hs.bare hm
          obtain rfl : c = '(' := (List.cons.inj (htail.symm.trans ha)).1
          decide
        | some member =>
          have := (hs.member member hm).2 c (by rw [htail]; rfl)
          simp only [Callee.endsMember, Bool.or_eq_true, beq_iff_eq] at this
          rcases this with rfl | rfl <;> decide
      refine ih.of_separator fun d hd => ?_
      rw [List.take_succ_cons, List.take_zero, List.getLast?_concat] at hd
      obtain rfl : c = d := by simpa using hd
      exact hc
  | @call text callee target spaces inside rest made items hn hb ht ho hl hc hr ih =>
    refine Item.seamed_chars_append.mpr ⟨fun d hd => ?_, ih⟩
    exact (Callee.next?_eq_some_iff.mp hn).seam d (by simpa using hd)

/-- Nothing of the text is lost. -/
theorem written (h : Rewrites world compilers text items) : Item.written items = text := by
  induction h with
  | last => exact Item.written_chars _
  | @dot text callee items hn hb hr ih =>
    have hs := Callee.next?_eq_some_iff.mp hn
    rw [Item.written_append, Item.written_chars, ih, ← hs.text]
    obtain ⟨-, member, hm, -⟩ := hs.exists_member hb
    simp [Callee.written, hm]
  | @name text callee items hn hb ht hr ih =>
    rw [Item.written_append, Item.written_chars, ih, List.append_assoc, List.take_append_drop]
    exact (Callee.next?_eq_some_iff.mp hn).text
  | @call text callee target spaces inside rest made items hn hb ht ho hl hc hr ih =>
    have hs := Callee.next?_eq_some_iff.mp hn
    rw [Item.written_append, Item.written_chars, Item.written, ih, WrittenCall.span,
      ← hs.lead_append_head ho inside]
    simp [Callee.site]

end Rewrites
end SceneFormula
