/-! Texts measured in the bytes of their UTF-8 form. An offset that falls inside a character
counts as lying behind that character. -/
namespace SceneFormula.Source

def width : List Char → Nat
  | [] => 0
  | c :: rest => c.utf8Size + width rest

def bytes (text : List Char) : List UInt8 :=
  text.flatMap String.utf8EncodeChar

/-- A text in two parts, the second one starting at byte `offset`. -/
def cut : Nat → List Char → List Char × List Char
  | _, [] => ([], [])
  | 0, text => ([], text)
  | offset + 1, c :: rest =>
    let (before, after) := cut (offset + 1 - c.utf8Size) rest
    (c :: before, after)

def byteAt? (text : List Char) (offset : Nat) : Option UInt8 :=
  (bytes text)[offset]?

def between (text : List Char) (start stop : Nat) : List Char :=
  (cut start (cut stop text).1).2

@[simp] theorem width_nil : width [] = 0 := rfl

@[simp] theorem width_cons (c : Char) (text : List Char) :
    width (c :: text) = c.utf8Size + width text := rfl

@[simp] theorem width_append (a b : List Char) : width (a ++ b) = width a + width b := by
  induction a with
  | nil => simp
  | cons c a ih => simp [ih, Nat.add_assoc]

/-- Cutting loses nothing. -/
theorem cut_append (offset : Nat) (text : List Char) :
    (cut offset text).1 ++ (cut offset text).2 = text := by
  fun_induction cut offset text with
  | case1 => rfl
  | case2 => rfl
  | case3 offset c rest before after h ih => simpa [h] using ih

/-- A cut where a part ends gives that part back. -/
theorem cut_width (before after : List Char) :
    cut (width before) (before ++ after) = (before, after) := by
  induction before with
  | nil => cases after <;> simp [cut]
  | cons c before ih =>
    have hc := c.utf8Size_pos
    obtain ⟨n, hn⟩ : ∃ n, c.utf8Size + width before = n + 1 :=
      ⟨c.utf8Size + width before - 1, by omega⟩
    rw [width_cons, List.cons_append, hn, cut, show n + 1 - c.utf8Size = width before by omega, ih]

end SceneFormula.Source
