import FlatSchema.Document.Basic
import FlatSchema.Json.Printer
import FlatSchema.Number.Double
import FlatSchema.Schema.Error

/-!
# Default values

The default of a field is kept as text. It is declared as a number, a boolean, the name of an enum member, several names in
an enum of bit flags, or a string that spells a number.
-/

namespace FlatSchema.Default

/-- The value that a string names in an enum: a member, or members in any number whose bits are combined. -/
def memberValue? (e : EnumDef) (text : List Char) : Option Int :=
  if e.isBitFlags then
    (Text.words text).foldlM (fun bits w => (e.val? (String.ofList w)).map fun v => or64 bits v.value) 0
  else (e.val? (String.ofList text)).map (·.value)

/-- The text that a string default stands for. -/
def ofString (enums : List EnumDef) (t : TypeDesc) (s : String) : String :=
  let s := Text.trim s.toList
  let text := String.ofList s
  if text = "true" then "1"
  else if text = "false" then "0"
  else
    match (t.enumRef.bind (enums[·]?)).bind (fun e => memberValue? e s) with
    | some v => toString v
    | none => text

/-- The text that a declared default stands for. -/
def textOf (enums : List EnumDef) (t : TypeDesc) : Json → Except ValueFault String
  | .bool b => if t.base.isInteger then .ok (if b then "1" else "0") else .error .notNumber
  | .number n => .ok n.text
  | .string s => .ok (ofString enums t s)
  | _ => .error .notNumberBoolOrMember

/-- Whether a text is the text of a value of a scalar type. -/
def check (b : BaseType) (text : String) : Except ValueFault Unit :=
  if b.isFloat then
    match Numeral.read? text.toList with
    | none => .error .notFloat
    | some n => if n.toDouble?.isSome then .ok () else .error .notFinite
  else
    match readSigned? 128 text, b.range with
    | none, _ => .error .notInteger
    | some v, some (low, high) => if low ≤ v ∧ v ≤ high then .ok () else .error (.outOfRange b)
    | some _, none => .ok ()

/-- The default of a field of a given type: zero if none is declared. -/
def constant (enums : List EnumDef) (t : TypeDesc) (context : String) : Option Json → Except LoadError String
  | none => .ok "0"
  | some raw =>
    if t.isScalar then
      match textOf enums t raw with
      | .error fault => .error (.invalidValue raw.compact context fault)
      | .ok text =>
        match check t.base text with
        | .error fault => .error (.invalidValue text context fault)
        | .ok () => .ok text
    else .error (.invalidValue raw.compact context .notScalar)

end FlatSchema.Default
