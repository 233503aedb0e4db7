import SceneFormula.Fault
import SceneFormula.Options
import SceneFormula.Source.Basic
import SceneFormula.Source.Name
import SceneFormula.Source.Quoted
import SceneFormula.Source.Search
import SceneFormula.Source.ArgumentList
import SceneFormula.Source.Blank
import SceneFormula.Arithmetic.Remainder
import SceneFormula.Arithmetic.Operator
import SceneFormula.Arithmetic.Builtin
import SceneFormula.Arithmetic.Term
import SceneFormula.Arithmetic.SyntaxFault
import SceneFormula.Arithmetic.Token
import SceneFormula.Arithmetic.Grammar
import SceneFormula.Arithmetic.Program
import SceneFormula.World.Function
import SceneFormula.World.FunctionTable
import SceneFormula.World.SceneTable
import SceneFormula.World.NameTable
import SceneFormula.World.Basic
import SceneFormula.Call.Resolution
import SceneFormula.Call.Place
import SceneFormula.Call.Callee
import SceneFormula.Formula.Expression
import SceneFormula.Formula.Classification
import SceneFormula.Formula.Parameter
import SceneFormula.Formula.Numeric
import SceneFormula.Formula.Textual
import SceneFormula.Formula.Compile
import SceneFormula.Formula.Dispatch
import SceneFormula.Source.Digits
import SceneFormula.Json.Basic
import SceneFormula.Json.Reader
import SceneFormula.Json.Writer
import SceneFormula.Json.Form
import SceneFormula.Proofs.Derivation
import SceneFormula.Proofs.Parsing
import SceneFormula.Proofs.Variables
import SceneFormula.Proofs.Folding
import SceneFormula.Proofs.Lexing
import SceneFormula.Proofs.ArgumentLists
import SceneFormula.Proofs.Parameters
import SceneFormula.Proofs.Rewriting
import SceneFormula.Proofs.VariableNames
import SceneFormula.Proofs.Callees
import SceneFormula.Proofs.Seams
import SceneFormula.Proofs.Replacement
import SceneFormula.Proofs.Weaving
import SceneFormula.Proofs.Hygiene
import SceneFormula.Proofs.Combining
import SceneFormula.Proofs.WrittenTerms
import SceneFormula.Proofs.TextCuts
import SceneFormula.Proofs.Depth
import SceneFormula.Proofs.Extending
import SceneFormula.Proofs.Shifting
import SceneFormula.Proofs.Composition
import SceneFormula.Proofs.Formulas
import SceneFormula.Proofs.Preceding
import SceneFormula.Proofs.Targets
import SceneFormula.Proofs.Scanning
import SceneFormula.Proofs.Flattening
import SceneFormula.Proofs.Arguments
import SceneFormula.Proofs.Compilation
import SceneFormula.Proofs.NameOrigins
import SceneFormula.Proofs.TextLanguage
import SceneFormula.Proofs.TextGaps
import SceneFormula.Proofs.MadeCalls
import SceneFormula.Proofs.Nesting
import SceneFormula.Proofs.Preparedness
import SceneFormula.Proofs.Sanctions
import SceneFormula.Proofs.LevelLimits
import SceneFormula.Proofs.LevelNeeds
import SceneFormula.Proofs.Precedence
import SceneFormula.Proofs.ArgumentWidths
import SceneFormula.Proofs.Mentions
import SceneFormula.Proofs.Pairings
import SceneFormula.Proofs.PairedRuns
import SceneFormula.Proofs.DepthLimits
import SceneFormula.Proofs.Excesses
import SceneFormula.Proofs.Diagnostics
import SceneFormula.Proofs.LiteralTexts
import SceneFormula.Proofs.ArgumentPlaces
import SceneFormula.Proofs.Progress
import SceneFormula.Proofs.FaultPlaces
import SceneFormula.Proofs.FaultPositions
import SceneFormula.Proofs.ExpressionRuns
import SceneFormula.Proofs.ByteOffsets
import SceneFormula.Proofs.ByteLists
import SceneFormula.Proofs.TokenOffsets
import SceneFormula.Proofs.TokenIndices
import SceneFormula.Proofs.CallPlaces
import SceneFormula.Proofs.GuardedBinding
import SceneFormula.Proofs.GuardedNumbers
import SceneFormula.Proofs.GuardedTexts
import SceneFormula.Proofs.GuardedForms
import SceneFormula.Proofs.Constants
import SceneFormula.Proofs.Divisions
import SceneFormula.Proofs.Unmentioned
import SceneFormula.Proofs.Lexemes
import SceneFormula.Proofs.Tokens
import SceneFormula.Proofs.AddedParameters
import SceneFormula.Proofs.CallFaults
import SceneFormula.Proofs.TermHeights
import SceneFormula.Proofs.JsonTexts
import SceneFormula.Proofs.JsonForms
import SceneFormula.Proofs.Registrations
import SceneFormula.Proofs.WorldRuns
