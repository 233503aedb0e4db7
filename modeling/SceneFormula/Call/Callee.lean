import SceneFormula.Source.Name

/-! The next place of a text that reads as a call: the name before the first `.` or `(`, and behind
a dot the function that is named there. -/
namespace SceneFormula

/-- The text before the name, the name, the text behind its dot up to a space or a `(`, and what
follows. Without a dot the name itself is called. -/
structure Callee where
  lead : List Char
  name : List Char
  member : Option (List Char)
  tail : List Char
  deriving DecidableEq, Repr

namespace Callee

def isMark (c : Char) : Bool :=
  c == '.' || c == '('

def endsMember (c : Char) : Bool :=
  c == ' ' || c == '('

/-- The next call of a text. Its name starts behind the last separator, or with the text. -/
def next? (text : List Char) : Option Callee :=
  let named := Source.cutName Source.separators (text.takeWhile (!isMark ·))
  match text.dropWhile (!isMark ·) with
  | [] => none
  | mark :: after =>
    if mark = '.' then
      some ⟨named.1, named.2, some (after.takeWhile (!endsMember ·)),
        after.dropWhile (!endsMember ·)⟩
    else some ⟨named.1, named.2, none, mark :: after⟩

def function (callee : Callee) : List Char :=
  callee.member.getD callee.name

def receiver? (callee : Callee) : Option String :=
  callee.member.map fun _ => String.ofList (Source.decodeSpaces callee.name)

def written (callee : Callee) : List Char :=
  callee.name ++ (callee.member.map ('.' :: ·)).getD []

/-- Nothing of the text is lost. -/
theorem next?_append {text : List Char} {callee : Callee} (h : next? text = some callee) :
    callee.lead ++ callee.written ++ callee.tail = text := by
  have ht := List.takeWhile_append_dropWhile (p := (!isMark ·)) (l := text)
  have hc := Source.cutName_append Source.separators (text.takeWhile (!isMark ·))
  unfold next? at h
  split at h
  · simp at h
  · rename_i mark after hd
    rw [hd] at ht
    split at h
    · rename_i hm
      obtain rfl := Option.some.inj h
      simp only [written, Option.map_some, Option.getD_some, ← List.append_assoc, hc]
      rw [List.append_assoc, List.cons_append, List.takeWhile_append_dropWhile, ← hm, ht]
    · obtain rfl := Option.some.inj h
      simpa [written, hc] using ht

end Callee
end SceneFormula
