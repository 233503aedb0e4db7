/-! Quoted texts. A quote that follows a backslash does not close them. -/
namespace SceneFormula.Source

/-- The text up to the next closing quote, and the text behind that quote. The quote does not
count directly behind a backslash, for which `previous` is the character before the text. -/
def splitQuoted (previous : Char) : List Char → Option (List Char × List Char)
  | [] => none
  | c :: rest =>
    if c = '"' ∧ previous ≠ '\\' then some ([], rest)
    else (splitQuoted c rest).map fun (body, after) => (c :: body, after)

def unescape : List Char → List Char
  | '\\' :: '"' :: rest => '"' :: unescape rest
  | c :: rest => c :: unescape rest
  | [] => []

def quote (text : List Char) : List Char :=
  '"' :: text.flatMap (fun c => if c = '"' then ['\\', '"'] else [c]) ++ ['"']

/-- Splitting loses nothing but the quote. -/
theorem splitQuoted_eq {previous : Char} {text body after : List Char}
    (h : splitQuoted previous text = some (body, after)) : text = body ++ '"' :: after := by
  fun_induction splitQuoted previous text generalizing body with
  | case1 => simp at h
  | case2 previous c rest hc => simp_all
  | case3 previous c rest hc ih =>
    obtain ⟨⟨b, a⟩, hs, he⟩ := Option.map_eq_some_iff.mp h
    obtain ⟨rfl, rfl⟩ := Prod.mk.inj he
    rw [ih hs, List.cons_append]

theorem splitQuoted_length {previous : Char} {text body after : List Char}
    (h : splitQuoted previous text = some (body, after)) : after.length < text.length := by
  rw [splitQuoted_eq h, List.length_append, List.length_cons]
  omega

end SceneFormula.Source
