import SceneFormula.Proofs.Parameters
import SceneFormula.Proofs.Lexing

/-! How a numeric text is rewritten, told without offsets: which characters stay, and where which
calls stand between them. The arithmetic is what is left when the calls are numbered. -/
namespace SceneFormula
open Arithmetic (Program)
open Source (ArgumentList isBroken separators)

/-- A call as it is written: the name before its mark, the function behind a dot with the number of
spaces that follow it, and what stands between the parentheses. -/
structure WrittenCall where
  name : List Char
  member : Option (List Char × Nat)
  inside : List Char

namespace WrittenCall

def head (site : WrittenCall) : List Char :=
  match site.member with
  | none => site.name ++ ['(']
  | some (member, spaces) => site.name ++ '.' :: member ++ List.replicate spaces ' ' ++ ['(']

def span (site : WrittenCall) : List Char :=
  site.head ++ site.inside ++ [')']

def function (site : WrittenCall) : String :=
  String.ofList ((site.member.map (·.1)).getD site.name)

def receiver? (site : WrittenCall) : Option String :=
  site.member.map fun _ => String.ofList (Source.decodeSpaces site.name)

end WrittenCall

def Callee.site (callee : Callee) (spaces : Nat) (inside : List Char) : WrittenCall :=
  ⟨callee.name, callee.member.map (·, spaces), inside⟩

inductive Item where
  | char (c : Char)
  | call (site : WrittenCall) (call : NumericCall)

namespace Item

def chars (text : List Char) : List Item :=
  text.map .char

def calls : List Item → List NumericCall
  | [] => []
  | char _ :: rest => calls rest
  | call _ made :: rest => made :: calls rest

def written : List Item → List Char
  | [] => []
  | char c :: rest => c :: written rest
  | call site _ :: rest => site.span ++ written rest

/-- The text before the first call, and the texts behind each call up to the next one. -/
def gaps : List Item → List Char × List (List Char)
  | [] => ([], [])
  | char c :: rest => (c :: (gaps rest).1, (gaps rest).2)
  | call _ _ :: rest => ([], (gaps rest).1 :: (gaps rest).2)

def spell : Nat → List Item → List Char
  | _, [] => []
  | count, char c :: rest => c :: spell count rest
  | count, call _ _ :: rest => (variableName (count + 1)).toList ++ spell (count + 1) rest

theorem calls_append (items more : List Item) :
    calls (items ++ more) = calls items ++ calls more := by
  induction items with
  | nil => rfl
  | cons item items ih =>
    cases item with
    | char c => exact ih
    | call site made => exact congrArg (made :: ·) ih

theorem calls_chars (text : List Char) : calls (chars text) = [] := by
  induction text with
  | nil => rfl
  | cons c text ih => exact ih

theorem written_append (items more : List Item) :
    written (items ++ more) = written items ++ written more := by
  induction items with
  | nil => rfl
  | cons item items ih =>
    cases item with
    | char c => exact congrArg (c :: ·) ih
    | call site made => rw [List.cons_append, written, ih, written, List.append_assoc]

theorem written_chars (text : List Char) : written (chars text) = text := by
  induction text with
  | nil => rfl
  | cons c text ih => exact congrArg (c :: ·) ih

theorem spell_append (count : Nat) (items more : List Item) :
    spell count (items ++ more) =
      spell count items ++ spell (count + (calls items).length) more := by
  induction items generalizing count with
  | nil => rfl
  | cons item items ih =>
    cases item with
    | char c =>
      rw [List.cons_append, spell, ih, spell, List.cons_append]
      rfl
    | call site made =>
      rw [List.cons_append, spell, ih, spell, List.append_assoc, calls, List.length_cons,
        Nat.add_right_comm, Nat.add_assoc]

theorem gaps_chars_append (text : List Char) (items : List Item) :
    gaps (chars text ++ items) = (text ++ (gaps items).1, (gaps items).2) := by
  induction text with
  | nil => rfl
  | cons c text ih =>
    change gaps (char c :: (chars text ++ items)) = _
    rw [gaps, ih]
    rfl

theorem length_gaps (items : List Item) : (gaps items).2.length = (calls items).length := by
  induction items with
  | nil => rfl
  | cons item items ih =>
    cases item with
    | char c => exact ih
    | call site made => exact congrArg (· + 1) ih

theorem spell_chars (count : Nat) (text : List Char) : spell count (chars text) = text := by
  induction text with
  | nil => rfl
  | cons c text ih => exact congrArg (c :: ·) ih

end Item

/-- The texts behind calls, each one with the variable of its call in front. The calls come behind
`count` other ones. -/
def weave : Nat → List (List Char) → List Char
  | _, [] => []
  | count, gap :: gaps => (variableName (count + 1)).toList ++ gap ++ weave (count + 1) gaps

theorem Item.spell_eq_weave (count : Nat) (items : List Item) :
    spell count items = (gaps items).1 ++ weave count (gaps items).2 := by
  induction items generalizing count with
  | nil => rfl
  | cons item items ih =>
    cases item with
    | char c => exact congrArg (c :: ·) (ih count)
    | call site made =>
      rw [spell, ih, gaps, weave, List.nil_append, List.append_assoc]

inductive Rewrites (world : World) (compilers : Compilers) : List Char → List Item → Prop
  | last {text : List Char} (h : Callee.next? text = none) :
    Rewrites world compilers text (Item.chars text)
  | dot {text : List Char} {callee : Callee} {items : List Item}
    (h : Callee.next? text = some callee)
    (hb : isBroken separators (Stretch.functionName callee) = true)
    (hr : Rewrites world compilers (callee.member.getD [] ++ callee.tail) items) :
    Rewrites world compilers text (Item.chars (callee.lead ++ callee.name ++ ['.']) ++ items)
  | name {text : List Char} {callee : Callee} {items : List Item}
    (h : Callee.next? text = some callee)
    (hb : isBroken separators (Stretch.functionName callee) = false)
    (ht : Stretch.target? world callee = none)
    (hr : Rewrites world compilers (callee.tail.drop 1) items) :
    Rewrites world compilers text
      (Item.chars (callee.lead ++ callee.written ++ callee.tail.take 1) ++ items)
  | call {text : List Char} {callee : Callee} {target : Target} {spaces : Nat}
    {inside rest : List Char} {made : NumericCall} {items : List Item}
    (h : Callee.next? text = some callee)
    (hb : isBroken separators (Stretch.functionName callee) = false)
    (ht : Stretch.target? world callee = some target)
    (ho : callee.tail = List.replicate spaces ' ' ++ '(' :: (inside ++ ')' :: rest))
    (hl : (ArgumentList.read 0 (inside ++ ')' :: rest)).rest = some rest)
    (hc : Calls world compilers target
      (ArgumentList.trimmed (ArgumentList.read 0 (inside ++ ')' :: rest)).texts) made)
    (hr : Rewrites world compilers rest items) :
    Rewrites world compilers text (Item.chars callee.lead ++
      .call (callee.site spaces inside) made :: items)

namespace Stretch
variable {context : Context} {compilers : Compilers}

def gaps : List Stretch → List Char × List (List Char)
  | [] => ([], [])
  | ⟨copied, none, _, _⟩ :: rest => (copied ++ (gaps rest).1, (gaps rest).2)
  | ⟨copied, some _, _, _⟩ :: rest => (copied, (gaps rest).1 :: (gaps rest).2)

theorem arithmetic_eq_weave (count : Nat) (stretches : List Stretch) :
    arithmetic count stretches = (gaps stretches).1 ++ weave count (gaps stretches).2 := by
  induction stretches generalizing count with
  | nil => rfl
  | cons stretch rest ih =>
    obtain ⟨copied, call, next, behind⟩ := stretch
    cases call with
    | none => rw [arithmetic, ih, gaps, List.append_assoc]
    | some call => rw [arithmetic, ih, gaps, weave, List.append_assoc, List.append_assoc]

structure Agrees (stretches : List Stretch) (items : List Item) : Prop where
  gaps : gaps stretches = Item.gaps items
  calls : stretches.filterMap (·.call) = Item.calls items

namespace Agrees

theorem nil : Agrees [] [] :=
  ⟨rfl, rfl⟩

theorem spell {stretches : List Stretch} {items : List Item} (h : Agrees stretches items)
    (count : Nat) : arithmetic count stretches = Item.spell count items := by
  rw [arithmetic_eq_weave, h.gaps, Item.spell_eq_weave]

theorem copied {stretches : List Stretch} {items : List Item} (h : Agrees stretches items)
    (copied : List Char) (next : Nat) (rest : List Char) :
    Agrees (⟨copied, none, next, rest⟩ :: stretches) (Item.chars copied ++ items) := by
  constructor
  · rw [Stretch.gaps, Item.gaps_chars_append, h.gaps]
  · rw [Item.calls_append, Item.calls_chars, List.nil_append]
    exact h.calls

theorem call {stretches : List Stretch} {items : List Item} (h : Agrees stretches items)
    (copied : List Char) (site : WrittenCall) (made : NumericCall) (next : Nat)
    (rest : List Char) :
    Agrees (⟨copied, some made, next, rest⟩ :: stretches)
      (Item.chars copied ++ .call site made :: items) := by
  constructor
  · rw [Stretch.gaps, Item.gaps_chars_append, Item.gaps, List.append_nil, h.gaps]
  · rw [Item.calls_append, Item.calls_chars, List.nil_append, Item.calls, ← h.calls]
    rfl

end Agrees

private theorem next?_ne_nil {text : List Char} {callee : Callee}
    (h : Callee.next? text = some callee) : text ≠ [] := by
  rintro rfl
  cases h

/-- The stretches of a text keep and call what the text is rewritten to. -/
theorem exists_rewrites {offset : Nat} {text : List Char} {stretches : List Stretch}
    (h : readAll context compilers offset text = .ok stretches) :
    ∃ items, Rewrites context.world compilers text items ∧ Agrees stretches items := by
  fun_induction readAll context compilers offset text generalizing stretches with
  | case1 =>
    obtain rfl := Except.ok.inj h
    exact ⟨_, .last rfl, .nil⟩
  | case2 => cases h
  | case3 => cases h
  | case4 offset text hne stretch hs others ho ih =>
    obtain rfl := Except.ok.inj h
    obtain ⟨items, hi, ha⟩ := ih ho
    unfold read at hs
    split at hs
    · rename_i hn
      obtain rfl := Except.ok.inj hs
      rw [readAll, dif_pos rfl] at ho
      obtain rfl := Except.ok.inj ho
      exact ⟨_, .last hn, by simpa using Agrees.nil.copied text _ _⟩
    · rename_i callee hn
      split at hs
      · rename_i hb
        obtain rfl := Except.ok.inj hs
        exact ⟨_, .dot hn hb hi, ha.copied _ _ _⟩
      · rename_i hb
        rw [Bool.not_eq_true] at hb
        split at hs
        · rename_i ht
          obtain rfl := Except.ok.inj hs
          exact ⟨_, .name hn hb ht hi, ha.copied _ _ _⟩
        · rename_i target ht
          unfold ofTarget at hs
          split at hs
          · cases hs
          · rename_i list hopen
            split at hs
            · cases hs
            · rename_i made rest hcall
              obtain rfl := Except.ok.inj hs
              obtain ⟨spaces, text, htail, rfl⟩ := ArgumentList.open?_eq_some_iff.mp hopen
              obtain ⟨hrest, hcalls⟩ := NumericCall.ofList_eq_ok_iff.mp hcall
              obtain ⟨htexts, hsame⟩ :=
                ArgumentList.read_shift (nameEnd offset callee + spaces + 1) 0 text
              rw [hsame] at hrest
              rw [htexts] at hcalls
              obtain ⟨inside, rfl, _⟩ := ArgumentList.resume_stop hrest
              exact ⟨_, .call hn hb ht htail hrest hcalls hi, ha.call _ _ _ _ _⟩

private theorem readAll_cons {offset : Nat} {text : List Char} {stretch : Stretch}
    {others : List Stretch} (hn : text ≠ [])
    (hs : read context compilers offset text = .ok stretch)
    (hr : readAll context compilers stretch.next stretch.rest = .ok others) :
    readAll context compilers offset text = .ok (stretch :: others) := by
  rw [readAll, dif_neg hn]
  split
  · rename_i fault hf
    rw [hs] at hf
    cases hf
  · rename_i found hf
    obtain rfl := Except.ok.inj (hs.symm.trans hf)
    rw [hr]

/-- A text that can be rewritten is read without a fault. -/
theorem exists_readAll {text : List Char} {items : List Item}
    (h : Rewrites context.world compilers text items) (offset : Nat) :
    ∃ stretches, readAll context compilers offset text = .ok stretches ∧
      Agrees stretches items := by
  -- One stretch is read for each step of the rewriting, whatever the offset at which it starts.
  induction h generalizing offset with
  | @last text hn =>
    by_cases hne : text = []
    · subst hne
      exact ⟨[], by rw [readAll, dif_pos rfl], .nil⟩
    · have hr : read context compilers offset text =
          .ok ⟨text, none, offset + Source.width text, []⟩ := by
        rw [read, hn]
      refine ⟨_, readAll_cons hne hr (by rw [readAll, dif_pos rfl]), ?_⟩
      simpa using Agrees.nil.copied text (offset + Source.width text) []
  | @dot text callee items hn hb _ ih =>
    have hr : read context compilers offset text = .ok (throughDot offset callee) := by
      rw [read, hn]
      exact if_pos hb
    obtain ⟨others, ho, ha⟩ := ih (throughDot offset callee).next
    exact ⟨_, readAll_cons (next?_ne_nil hn) hr ho, ha.copied _ _ _⟩
  | @name text callee items hn hb ht _ ih =>
    have hr : read context compilers offset text = .ok (throughName offset callee) := by
      simp only [read, hn, hb, ht, Bool.false_eq_true, if_false]
    obtain ⟨others, ho, ha⟩ := ih (throughName offset callee).next
    exact ⟨_, readAll_cons (next?_ne_nil hn) hr ho, ha.copied _ _ _⟩
  | @call text callee target spaces inside rest made items hn hb ht htail hl hc _ ih =>
    obtain ⟨htexts, hsame⟩ := ArgumentList.read_shift (nameEnd offset callee + spaces + 1) 0
      (inside ++ ')' :: rest)
    have hopen : ArgumentList.open? (nameEnd offset callee) callee.tail =
        some (ArgumentList.read (nameEnd offset callee + spaces + 1) (inside ++ ')' :: rest)) :=
      ArgumentList.open?_eq_some_iff.mpr ⟨spaces, _, htail, rfl⟩
    have hcall : NumericCall.ofList context compilers target (nameEnd offset callee)
        (ArgumentList.read (nameEnd offset callee + spaces + 1) (inside ++ ')' :: rest)) =
          .ok (made, rest) := by
      refine NumericCall.ofList_eq_ok_iff.mpr ⟨?_, ?_⟩
      · rw [hsame, hl]
      · rw [htexts]
        exact hc
    have hr : read context compilers offset text = .ok ⟨callee.lead, some made,
        (ArgumentList.read (nameEnd offset callee + spaces + 1)
          (inside ++ ')' :: rest)).stop + 1, rest⟩ := by
      simp only [read, hn, hb, ht, Bool.false_eq_true, if_false, ofTarget, hopen, hcall]
    obtain ⟨others, ho, ha⟩ := ih ((ArgumentList.read (nameEnd offset callee + spaces + 1)
      (inside ++ ')' :: rest)).stop + 1)
    exact ⟨_, readAll_cons (next?_ne_nil hn) hr ho, ha.call _ _ _ _ _⟩

end Stretch

/-- A text is accepted if and only if it can be rewritten and the arithmetic that is left is a
program over the variables of its calls. -/
theorem NumericForm.compileWith_eq_ok_iff {context : Context} {compilers : Compilers}
    {raw : String} {form : NumericForm} :
    NumericForm.compileWith context compilers raw = .ok form ↔
      ∃ items program, Rewrites context.world compilers raw.toList items ∧
        Program.parse (String.ofList (Item.spell 0 items)) (variableNames (Item.calls items).length)
          context.options.maxDepth.toNat = .ok program ∧
        form = ⟨Item.calls items, program.optimize⟩ := by
  constructor
  · intro h
    simp only [NumericForm.compileWith] at h
    split at h
    · cases h
    · rename_i stretches hs
      obtain ⟨items, hr, ha⟩ := Stretch.exists_rewrites hs
      rw [ha.calls, ha.spell] at h
      split at h
      · cases h
      · rename_i program hp
        exact ⟨items, program, hr, hp, (Except.ok.inj h).symm⟩
  · rintro ⟨items, program, hr, hp, rfl⟩
    obtain ⟨stretches, hs, ha⟩ := Stretch.exists_readAll hr 0
    simp only [NumericForm.compileWith, hs, ha.calls, ha.spell, hp]

end SceneFormula
