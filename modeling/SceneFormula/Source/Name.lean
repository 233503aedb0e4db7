/-! Names as they are written in expressions: what ends them, and how they spell spaces. -/
namespace SceneFormula.Source

def separators : List Char :=
  [' ', ',', '+', '-', '*', '/', '%', '^', '=', '<', '>', '!', '&', '|', '(', ')']

/-- A text cut before its longest end that holds none of the given separators. -/
def cutName (separators : List Char) : List Char → List Char × List Char
  | [] => ([], [])
  | c :: rest =>
    match cutName separators rest with
    | ([], name) => if separators.contains c then ([c], name) else ([], c :: name)
    | (lead, name) => (c :: lead, name)

/-- Names of objects spell a space as `~`. -/
def decodeSpaces (name : List Char) : List Char :=
  name.map fun c => if c = '~' then ' ' else c

def isBroken (separators name : List Char) : Bool :=
  name.dropLast.any separators.contains

def splitComponent : List Char → Option (List Char × List Char)
  | ':' :: ':' :: rest => some ([], rest)
  | c :: rest => (splitComponent rest).map fun (component, member) => (c :: component, member)
  | [] => none

/-- Cutting off a name loses nothing. -/
theorem cutName_append (separators text : List Char) :
    (cutName separators text).1 ++ (cutName separators text).2 = text := by
  fun_induction cutName separators text with
  | case1 => rfl
  | case2 c rest name h hc ih => simpa [h] using ih
  | case3 c rest name h hc ih => simpa [h] using ih
  | case4 c rest lead name hne h ih => simpa [h] using ih

/-- The name that is cut off holds no separator. -/
theorem not_separator_of_mem_cutName {separators text : List Char} {c : Char}
    (h : c ∈ (cutName separators text).2) : c ∉ separators := by
  fun_induction cutName separators text with
  | case1 => simp at h
  | case2 d rest name hr hd ih => exact ih (by simpa [hr] using h)
  | case3 d rest name hr hd ih =>
    rcases List.mem_cons.mp h with rfl | h
    · simpa using hd
    · exact ih (by simpa [hr] using h)
  | case4 d rest lead name hne hr ih => exact ih (by simpa [hr] using h)

/-- What stands before the name is empty or ends in a separator. -/
theorem getLast_cutName_mem {separators text : List Char} (c : Char)
    (h : (cutName separators text).1.getLast? = some c) : c ∈ separators := by
  fun_induction cutName separators text with
  | case1 => simp at h
  | case2 d rest name hr hd ih => simp_all
  | case3 d rest name hr hd ih => simp at h
  | case4 d rest lead name hne hr ih =>
    refine ih ?_
    rw [hr]
    cases lead with
    | nil => exact absurd rfl hne
    | cons a lead => simpa using h

end SceneFormula.Source
