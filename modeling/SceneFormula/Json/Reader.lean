import SceneFormula.Json.Basic

namespace SceneFormula.Json

abbrev Reader (α : Type) := List Char → Option (α × List Char)

def isBlank (c : Char) : Bool :=
  c == ' ' || c == '\n' || c == '\r' || c == '\t'

def skipBlanks (text : List Char) : List Char :=
  text.dropWhile isBlank

def hexValue? (c : Char) : Option Nat :=
  if c.isDigit then some (c.toNat - '0'.toNat)
  else if 'a' ≤ c ∧ c ≤ 'f' then some (c.toNat - 'a'.toNat + 10)
  else if 'A' ≤ c ∧ c ≤ 'F' then some (c.toNat - 'A'.toNat + 10)
  else none

def hexCode? (digits : List Char) : Option Nat :=
  digits.foldlM (fun code c => (hexValue? c).map (code * 16 + ·)) 0

def escaped? : Char → Option Char
  | '"' => some '"'
  | '\\' => some '\\'
  | '/' => some '/'
  | 'b' => some '\x08'
  | 'f' => some '\x0c'
  | 'n' => some '\n'
  | 'r' => some '\r'
  | 't' => some '\t'
  | _ => none

def readUnits : Reader (List StringUnit)
  | [] => none
  | '"' :: rest => some ([], rest)
  | '\\' :: 'u' :: a :: b :: c :: d :: rest => do
    let code ← hexCode? [a, b, c, d]
    let (units, rest) ← readUnits rest
    some (.ofCode code :: units, rest)
  | '\\' :: c :: rest => do
    let c ← escaped? c
    let (units, rest) ← readUnits rest
    some (.char c :: units, rest)
  | c :: rest => do
    guard (c ≠ '\\' ∧ ' ' ≤ c)
    let (units, rest) ← readUnits rest
    some (.char c :: units, rest)

def readDigits : Reader (List Char) := fun text =>
  match text.takeWhile Char.isDigit with
  | [] => none
  | digits => some (digits, text.dropWhile Char.isDigit)

def readWhole : Reader (List Char)
  | '0' :: rest => some (['0'], rest)
  | text => readDigits text

def readFraction : Reader (List Char)
  | '.' :: rest => do
    let (digits, rest) ← readDigits rest
    some ('.' :: digits, rest)
  | text => some ([], text)

def readExponent : Reader (List Char)
  | [] => some ([], [])
  | e :: rest =>
    if e = 'e' ∨ e = 'E' then
      match rest with
      | [] => none
      | sign :: behind =>
        if sign = '+' ∨ sign = '-' then do
          let (digits, rest) ← readDigits behind
          some (e :: sign :: digits, rest)
        else do
          let (digits, rest) ← readDigits rest
          some (e :: digits, rest)
    else some ([], e :: rest)

def readUnsigned : Reader (List Char) := fun text => do
  let (whole, rest) ← readWhole text
  let (fraction, rest) ← readFraction rest
  let (exponent, rest) ← readExponent rest
  some (whole ++ fraction ++ exponent, rest)

def readNumber : Reader Json
  | '-' :: rest => do
    let (literal, rest) ← readUnsigned rest
    some (.number ('-' :: literal), rest)
  | text => do
    let (literal, rest) ← readUnsigned text
    some (.number literal, rest)

def readItems (item : Reader Json) : Nat → Reader (List Json)
  | 0, _ => none
  | bound + 1, text => do
    let (first, rest) ← item text
    match skipBlanks rest with
    | ',' :: rest =>
      let (others, rest) ← readItems item bound rest
      some (first :: others, rest)
    | ']' :: rest => some ([first], rest)
    | _ => none

def readMember (value : Reader Json) : Reader (List StringUnit × Json) := fun text =>
  match skipBlanks text with
  | '"' :: rest => do
    let (key, rest) ← readUnits rest
    match skipBlanks rest with
    | ':' :: rest =>
      let (value, rest) ← value rest
      some ((key, value), rest)
    | _ => none
  | _ => none

def readMembers (value : Reader Json) : Nat → Reader (List (List StringUnit × Json))
  | 0, _ => none
  | bound + 1, text => do
    let (first, rest) ← readMember value text
    match skipBlanks rest with
    | ',' :: rest =>
      let (others, rest) ← readMembers value bound rest
      some (first :: others, rest)
    | '}' :: rest => some ([first], rest)
    | _ => none

def readArray (item : Reader Json) : Reader Json := fun text =>
  match skipBlanks text with
  | ']' :: rest => some (.array [], rest)
  | _ => do
    let (items, rest) ← readItems item text.length text
    some (.array items, rest)

def readObject (value : Reader Json) : Reader Json := fun text =>
  match skipBlanks text with
  | '}' :: rest => some (.object [], rest)
  | _ => do
    let (members, rest) ← readMembers value text.length text
    some (.object members, rest)

def readValue (inner : Reader Json) : Reader Json := fun text =>
  match skipBlanks text with
  | 'n' :: 'u' :: 'l' :: 'l' :: rest => some (.null, rest)
  | 't' :: 'r' :: 'u' :: 'e' :: rest => some (.bool true, rest)
  | 'f' :: 'a' :: 'l' :: 's' :: 'e' :: rest => some (.bool false, rest)
  | '"' :: rest => do
    let (units, rest) ← readUnits rest
    some (.string units, rest)
  | '[' :: rest => readArray inner rest
  | '{' :: rest => readObject inner rest
  | text => readNumber text

def readLevels : Nat → Reader Json
  | 0 => fun _ => none
  | levels + 1 => fun text => readValue (readLevels levels) text

/-- The value that a text spells as a whole. Brackets nest no deeper than the text is long. -/
def ofChars? (text : List Char) : Option Json := do
  let (value, rest) ← readLevels (text.length + 1) text
  guard (skipBlanks rest = [])
  some value

end SceneFormula.Json
