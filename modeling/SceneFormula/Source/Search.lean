import SceneFormula.Source.Basic
import SceneFormula.Source.ArgumentList
import SceneFormula.Source.Quoted

/-! Searches in a text by byte offset. Sets of characters are searched for byte by byte, and an
offset past the end finds nothing. -/
namespace SceneFormula.Source

def indexOfByte? (wanted : UInt8 → Bool) (text : List Char) (start : Nat) : Option Nat :=
  (((bytes text).drop start).findIdx? wanted).map (start + ·)

/-- The first place of a character, told by its first byte, at or behind an offset. -/
def indexOf? (text : List Char) (c : Char) (start : Nat) : Option Nat :=
  indexOfByte? (fun b => (String.utf8EncodeChar c).head? == some b) text start

def indexOfAny? (text set : List Char) (start : Nat) : Option Nat :=
  indexOfByte? (bytes set).contains text start

def lastIndexOfAny? (text set : List Char) (stop : Nat) : Option Nat :=
  let before := (bytes text).take stop
  (before.reverse.findIdx? (bytes set).contains).map (before.length - 1 - ·)

def nameOrigin (text separators : List Char) (stop : Nat) : Nat :=
  ((lastIndexOfAny? text separators stop).map (· + 1)).getD 0

def listOpening? (text : List Char) (start : Nat) : Option Nat :=
  let after := (bytes text).drop start
  let spaces := (after.takeWhile (· == ' '.toUInt8)).length
  if after[spaces]? = some '('.toUInt8 then some (start + spaces) else none

def quoteEnd? (text : List Char) (start : Nat) : Option Nat :=
  let (before, after) := cut start text
  (splitQuoted (before.getLast?.getD '"') after).map fun (body, _) => width before + width body

def ArgumentList.readAt (text : List Char) (start : Nat) : ArgumentList :=
  read start (cut start text).2

def comesBefore : Option Nat → Option Nat → Bool
  | some a, some b => a < b
  | some _, none => true
  | none, _ => false

def soonest? (places : List (Option Nat)) : Option Nat :=
  (places.filterMap id).min?

end SceneFormula.Source
