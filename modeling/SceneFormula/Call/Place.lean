import SceneFormula.Source.Name
import SceneFormula.Source.Search

/-! Where calls are written. A name that ends at a `(` is called without a receiver; one that ends
at a `.` is the receiver of the function named behind it, up to a space or a `(`. -/
namespace SceneFormula

structure CallPlace where
  start : Nat
  mark : Nat
  object : String
  function : String
  functionEnd : Option Nat
  bare : Bool
  deriving DecidableEq, Repr

namespace CallPlace

def receiver? (place : CallPlace) : Option String :=
  if place.bare then none else some place.object

/-- The place whose name ends at the earlier of two marks, a dot and a parenthesis. The name starts
behind the last separator, but not before `start`. -/
def ofMarks (text separators : List Char) (start : Nat) (dot paren : Option Nat) :
    Option CallPlace :=
  let bare := Source.comesBefore paren dot
  (if bare then paren else dot).map fun mark =>
    let start := max (Source.nameOrigin text separators mark) start
    let name := Source.between text start mark
    let stop := Source.indexOfAny? text [' ', '('] mark
    let behind := Source.between text (mark + 1) (stop.getD (Source.width text))
    { start, mark, bare
      object := String.ofList (Source.decodeSpaces name)
      function := String.ofList (if bare then name else behind)
      functionEnd := if bare then some mark else stop }

end CallPlace
end SceneFormula
