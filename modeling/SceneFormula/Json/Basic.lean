import SceneFormula.Source.Digits

/-! JSON texts as they are spelled: numbers by their literals, strings with the surrogates that
their escapes name, and the members of objects in order, with repetitions. -/
namespace SceneFormula

/-- A character of a string, or the half of a surrogate pair that an escape names. -/
inductive StringUnit where
  | char (c : Char)
  | half (code : Nat)
  deriving DecidableEq, Repr

inductive Json where
  | null
  | bool (value : Bool)
  | number (literal : List Char)
  | string (units : List StringUnit)
  | array (items : List Json)
  | object (members : List (List StringUnit × Json))

namespace StringUnit

def isHigh (code : Nat) : Bool :=
  0xD800 ≤ code && code < 0xDC00

def isLow (code : Nat) : Bool :=
  0xDC00 ≤ code && code < 0xE000

def ofCode (code : Nat) : StringUnit :=
  if isHigh code || isLow code then half code else char (Char.ofNat code)

def text? : List StringUnit → Option (List Char)
  | [] => some []
  | char c :: rest => (text? rest).map (c :: ·)
  | half high :: half low :: rest =>
    if isHigh high && isLow low then
      (text? rest).map (Char.ofNat (0x10000 + (high - 0xD800) * 0x400 + (low - 0xDC00)) :: ·)
    else none
  | half _ :: _ => none

def ofText (text : List Char) : List StringUnit :=
  text.map char

@[simp] theorem text?_ofText (text : List Char) : text? (ofText text) = some text := by
  induction text with
  | nil => rfl
  | cons c rest ih =>
    rw [ofText, List.map_cons, text?, ← ofText, ih]
    rfl

end StringUnit

namespace Json

def ofText (text : String) : Json :=
  string (StringUnit.ofText text.toList)

def ofNat (n : Nat) : Json :=
  number (Source.digits n)

def record (members : List (String × Json)) : Json :=
  object (members.map fun (key, value) => (StringUnit.ofText key.toList, value))

def asBool? : Json → Option Bool
  | bool value => some value
  | _ => none

def asText? : Json → Option String
  | string units => (StringUnit.text? units).map String.ofList
  | _ => none

/-- The value of a literal of digits alone. One with a sign, a point or an exponent has none. -/
def asNat? : Json → Option Nat
  | number literal =>
    if literal.all Char.isDigit then some (Source.digitsValue literal) else none
  | _ => none

def asArray? : Json → Option (List Json)
  | array items => some items
  | _ => none

/-- The values of fields, from an object that holds each of them at most once, or from an array in
the order of the fields that holds no more than those. -/
def fields? (names : List String) : Json → Option (List (Option Json))
  | array items =>
    if items.length ≤ names.length then some (names.mapIdx fun i _ => items[i]?) else none
  | object members => do
    let keyed ← members.mapM fun (key, value) => (StringUnit.text? key).map ((·, value))
    names.mapM fun name =>
      match keyed.filter fun (key, _) => key == name.toList with
      | [] => some none
      | [(_, value)] => some (some value)
      | _ => none
  | _ => none

end Json
end SceneFormula
