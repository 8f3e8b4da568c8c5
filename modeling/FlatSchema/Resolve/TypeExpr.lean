import FlatSchema.Resolve.Names

/-!
# Type expressions

A type expression is a name, `[E]` for a vector of `E`, or `[E:N]` for an array of `N` elements `E`. `TypeExpr.read` finds
the shape of an expression, and `TypeExpr.resolve` the type that it denotes.
-/

namespace FlatSchema

/-- The shape of a type expression. -/
inductive TypeExpr
  | name (element : String)
  | vector (element : String)
  | array (element : String) (length : Nat)
deriving DecidableEq, Repr

namespace TypeExpr

/-- The parts of a text before and after the last occurrence of a character. -/
def splitLast? (c : Char) (s : List Char) : Option (List Char × List Char) :=
  let (after, rest) := s.reverse.span (· != c)
  match rest with
  | [] => none
  | _ :: before => some (before.reverse, after.reverse)

/-- A text without a given last character. -/
def dropLast? (c : Char) (s : List Char) : Option (List Char) :=
  if s.getLast? = some c then some s.dropLast else none

/-- The name of an element: blanks around it do not count, and it is no vector itself. -/
def readElement (s : List Char) : Except TypeFault String :=
  match Text.trim s with
  | '[' :: _ => .error .nestedVector
  | e => .ok (String.ofList e)

/-- The length of an array: a positive number of at most 16 bits. -/
def readLength (s : List Char) : Except TypeFault Nat :=
  match readUnsigned? 16 (String.ofList (Text.trim s)) with
  | none => .error .lengthNotNumber
  | some 0 => .error .lengthZero
  | some n => .ok n

/-- Reads an expression from which the blanks around it have been dropped. -/
def read : List Char → Except TypeFault TypeExpr
  | '[' :: inner =>
    match dropLast? ']' inner with
    | none => .error .unterminated
    | some inner =>
      match splitLast? ':' inner with
      | some (element, length) => do
        let n ← readLength length
        let e ← readElement element
        return .array e n
      | none => do
        let e ← readElement inner
        return .vector e
  | s => .ok (.name (String.ofList s))

/-- The type that a name denotes: a built-in type, or what the name table holds. -/
def resolveName (names : NameTable) (enums : List EnumDef) (scope : Namespace) (context name : String) :
    Except LoadError TypeDesc :=
  match BaseType.builtin? name with
  | some b => .ok (.plain b)
  | none =>
    match names.find? name scope with
    | some (.struct i) => .ok (.record i)
    | some (.enum i) =>
      match enums[i]? with
      | some e => .ok (if e.isUnion then .union i else .enumeration e.underlying.base i)
      | none => .error (.unknownType name context)
    | none => .error (.unknownType name context)

/-- The type that an expression denotes inside a namespace. -/
def resolve (names : NameTable) (enums : List EnumDef) (scope : Namespace) (context : String) :
    TypeExpr → Except LoadError TypeDesc
  | .name e => resolveName names enums scope context e
  | .vector e => do return .vectorOf (← resolveName names enums scope context e)
  | .array e n => do return .arrayOf (← resolveName names enums scope context e) n

/-- The type that the text of an expression denotes inside a namespace. -/
def typeOf (names : NameTable) (enums : List EnumDef) (scope : Namespace) (context text : String) :
    Except LoadError TypeDesc :=
  let expr := Text.trim text.toList
  match read expr with
  | .ok e => e.resolve names enums scope context
  | .error fault => .error (.invalidType (String.ofList expr) context fault)

end TypeExpr

end FlatSchema
