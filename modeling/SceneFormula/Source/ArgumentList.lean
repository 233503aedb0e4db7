/-! Argument lists, read from behind their opening parenthesis. Commas and parentheses count
outside quoted spans only, commas at the outermost level only, and a quote behind a backslash
opens and closes nothing. -/
namespace SceneFormula.Source

structure Argument where
  text : List Char
  start : Nat
  deriving DecidableEq, Repr

/-- An argument list: the arguments between its commas, the offset where reading stopped, and the
text behind its closing parenthesis if there is one. The last argument may be empty. -/
structure ArgumentList where
  first : Argument
  others : List Argument
  stop : Nat
  rest : Option (List Char)
  deriving DecidableEq, Repr

namespace ArgumentList

def arguments (list : ArgumentList) : List Argument :=
  list.first :: list.others

def close (list : ArgumentList) : Option Nat :=
  list.rest.map fun _ => list.stop

def push (c : Char) (offset : Nat) (list : ArgumentList) : ArgumentList :=
  { list with first := ⟨c :: list.first.text, offset⟩ }

/-- Reads the list that goes on at `offset`, inside `level` more parentheses, within quotes or
not, and behind the character `previous`. -/
def resume (level : Nat) (quoted : Bool) (previous : Char) (offset : Nat) :
    List Char → ArgumentList
  | [] => ⟨⟨[], offset⟩, [], offset, none⟩
  | c :: rest =>
    let quoted := if c = '"' ∧ previous ≠ '\\' then !quoted else quoted
    let next := offset + c.utf8Size
    if quoted then push c offset (resume level quoted c next rest)
    else if c = '(' then push c offset (resume (level + 1) quoted c next rest)
    else
      match level with
      | level + 1 =>
        push c offset (resume (if c = ')' then level else level + 1) quoted c next rest)
      | 0 =>
        if c = ')' then ⟨⟨[], offset⟩, [], offset, some rest⟩
        else if c = ',' then
          let list := resume 0 quoted c next rest
          ⟨⟨[], offset⟩, list.arguments, list.stop, list.rest⟩
        else push c offset (resume 0 quoted c next rest)

def read (offset : Nat) (text : List Char) : ArgumentList :=
  resume 0 false '(' offset text

def open? (offset : Nat) (text : List Char) : Option ArgumentList :=
  match text.dropWhile (· == ' ') with
  | '(' :: inside => some (read (offset + (text.takeWhile (· == ' ')).length + 1) inside)
  | _ => none

/-- The arguments where a last one of nothing but spaces is none. -/
def given (list : ArgumentList) : List Argument :=
  if (list.arguments.getLast?.getD list.first).text.all (· == ' ') then list.arguments.dropLast
  else list.arguments

theorem resume_length {level : Nat} {quoted : Bool} {previous : Char} {offset : Nat}
    {text rest : List Char} (h : (resume level quoted previous offset text).rest = some rest) :
    rest.length < text.length := by
  fun_induction resume level quoted previous offset text with
  | case1 => simp at h
  | case2 | case3 | case4 | case7 =>
    rename_i ih
    exact Nat.lt_succ_of_lt (ih h)
  | case5 => simp_all
  | case6 =>
    rename_i ih
    exact Nat.lt_succ_of_lt (ih h)

/-- What stands behind an argument list is shorter than the text it was read from. -/
theorem read_length {offset : Nat} {text rest : List Char}
    (h : (read offset text).rest = some rest) : rest.length < text.length :=
  resume_length h

theorem open?_length {offset : Nat} {text rest : List Char} {list : ArgumentList}
    (h : open? offset text = some list) (hr : list.rest = some rest) :
    rest.length < text.length := by
  unfold open? at h
  split at h
  · rename_i inside hd
    have hi := read_length (Option.some.inj h ▸ hr)
    have hl := congrArg List.length (List.takeWhile_append_dropWhile (p := (· == ' ')) (l := text))
    rw [hd, List.length_append, List.length_cons] at hl
    omega
  · simp at h

end ArgumentList
end SceneFormula.Source
