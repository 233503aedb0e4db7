import SceneFormula.Fault
import SceneFormula.Json.Reader
import SceneFormula.Json.Writer
import SceneFormula.World.Basic

/-! The JSON forms of options, of functions and of what functions declare. A structure is written as
an object with its fields in order. It may be read from an array of its fields too, fields that have
a default may be left out, and other members of an object are ignored. -/
namespace SceneFormula

class JsonForm (α : Type) where
  encode : α → Json
  decode? : Json → Option α

namespace JsonForm
variable {α : Type} [JsonForm α]

def write (value : α) : String :=
  String.ofList (encode value).write

def read? (text : String) : Option α :=
  (Json.ofChars? text.toList).bind decode?

def required? (field : Option Json) : Option α :=
  field.bind decode?

def optional? (default : α) : Option Json → Option α
  | none => some default
  | some value => decode? value

end JsonForm

open JsonForm (encode decode? required? optional?)

instance : JsonForm Bool where
  encode := .bool
  decode? := Json.asBool?

instance : JsonForm UInt32 where
  encode n := .ofNat n.toNat
  decode? value := value.asNat?.bind fun n => if n < UInt32.size then some n.toUInt32 else none

instance : JsonForm UInt64 where
  encode n := .ofNat n.toNat
  decode? value := value.asNat?.bind fun n => if n < UInt64.size then some n.toUInt64 else none

instance {α : Type} [JsonForm α] : JsonForm (List α) where
  encode values := .array (values.map encode)
  decode? value := value.asArray?.bind (·.mapM decode?)

instance : JsonForm NameId where
  encode identifier := encode identifier.value
  decode? value := (decode? value).map NameId.mk

instance : JsonForm FunctionRef where
  encode id := encode id.value
  decode? value := (decode? value).map FunctionRef.mk

def ResultKind.name : ResultKind → String
  | number => "number"
  | text => "text"

def ResultKind.ofName? (name : String) : Option ResultKind :=
  [number, text].find? (·.name == name)

/-- A kind of value is its name, or an object with a null under that name. -/
instance : JsonForm ResultKind where
  encode kind := .ofText kind.name
  decode?
    | .object [(key, .null)] => (Json.string key).asText?.bind ResultKind.ofName?
    | value => value.asText?.bind ResultKind.ofName?

instance : JsonForm ParameterKind where
  encode kind := .ofText kind.name
  decode? value := value.asText?.map ParameterKind.ofName

instance : JsonForm Declaration where
  encode declaration :=
    .record [("type", encode declaration.kind), ("optional", encode declaration.optional)]
  decode? value := do
    match ← value.fields? ["type", "optional"] with
    | [kind, optional] => some ⟨← required? kind, ← optional? false optional⟩
    | _ => none

instance : JsonForm Signature where
  encode signature :=
    .record [("id", encode signature.id), ("parameters", encode signature.parameters)]
  decode? value := do
    match ← value.fields? ["id", "parameters"] with
    | [id, parameters] => some ⟨← required? id, ← required? parameters⟩
    | _ => none

instance : JsonForm Options where
  encode options :=
    .record [("diagnostics", encode options.diagnostics), ("max_depth", encode options.maxDepth)]
  decode? value := do
    let defaults : Options := {}
    match ← value.fields? ["diagnostics", "max_depth"] with
    | [diagnostics, maxDepth] =>
      some {
        diagnostics := ← optional? defaults.diagnostics diagnostics
        maxDepth := ← optional? defaults.maxDepth maxDepth }
    | _ => none

def Options.ofJson (text : String) : Except Fault Options :=
  match JsonForm.read? text with
  | some options => .ok options
  | none => .error (.invalidOptions "not the JSON form of options")

end SceneFormula
