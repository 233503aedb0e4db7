namespace SceneFormula

/-- Settings of a preparation. Without diagnostics no expression keeps a fault, and surplus
parameters are found by the final count only. -/
structure Options where
  diagnostics : Bool := true
  maxDepth : UInt64 := 64
  deriving DecidableEq, Repr

end SceneFormula
