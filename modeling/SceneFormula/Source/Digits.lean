namespace SceneFormula.Source

def digitsValue (digits : List Char) : Nat :=
  digits.foldl (fun value c => value * 10 + (c.toNat - '0'.toNat)) 0

def digits (n : Nat) : List Char :=
  Nat.toDigits 10 n

end SceneFormula.Source
