/-! The remainder of a division of floats that is rounded towards zero. It is exact: both operands
are whole multiples of one power of two, and so is what is left. -/
namespace SceneFormula.Arithmetic
open Float.Model

/-- What is left of `x` after taking away `y` as often as it fits, with the sign of `x`. Nothing is
left of an infinity or by a zero, which is no number; an infinity fits into no finite number. -/
def remainder (x y : Float) : Float :=
  match x.toModel.unpack, y.toModel.unpack with
  | .notANumber, _ | _, .notANumber | .infinity _, _ | _, .zero _ => 0.0 / 0.0
  | .zero _, _ | _, .infinity _ => x
  | .finite sign m e _, .finite _ n d _ =>
    let low := min e d
    let left := (m <<< (e - low).toNat) % (n <<< (d - low).toNat)
    if left = 0 then .ofModel (.pack (.zero sign))
    else .ofModel (.pack (UnpackedFloat.round .binary64 sign left low))

end SceneFormula.Arithmetic
