import FlatSchema.Schema.BaseType

/-!
# Type descriptors

The type of a field or of a union's payload: a base type, the base type of the elements of a vector or array, and the
definitions it refers to, by their places in the schema.
-/

namespace FlatSchema

/-- The full type of a value. The two references serve the value itself or, in a container, its elements. -/
structure TypeDesc where
  base : BaseType := .none
  /-- The base type of the elements of a vector or array. -/
  element : BaseType := .none
  /-- The fixed struct or table that is referred to. -/
  structRef : Option Nat := none
  /-- The enum or union that is referred to. -/
  enumRef : Option Nat := none
  /-- The number of elements of an array. -/
  length : Nat := 0
deriving DecidableEq, Repr, Inhabited

namespace TypeDesc

/-- A type that refers to nothing. -/
def plain (b : BaseType) : TypeDesc :=
  { base := b }

/-- An integer that takes the values of an enum. -/
def enumeration (underlying : BaseType) (i : Nat) : TypeDesc :=
  { base := underlying, enumRef := some i }

/-- A fixed struct or a table. -/
def record (i : Nat) : TypeDesc :=
  { base := .struct, structRef := some i }

/-- The payload of a union. -/
def union (i : Nat) : TypeDesc :=
  { base := .union, enumRef := some i }

/-- The discriminant of a union. -/
def discriminant (i : Nat) : TypeDesc :=
  { base := .utype, enumRef := some i }

/-- A vector of elements of a given type. -/
def vectorOf (t : TypeDesc) : TypeDesc :=
  { base := .vector, element := t.base, structRef := t.structRef, enumRef := t.enumRef }

/-- An array of a given number of elements. -/
def arrayOf (t : TypeDesc) (length : Nat) : TypeDesc :=
  { base := .array, element := t.base, structRef := t.structRef, enumRef := t.enumRef, length := length }

/-- The type of the elements of a vector or array. -/
def elementType (t : TypeDesc) : TypeDesc :=
  { base := t.element, structRef := t.structRef, enumRef := t.enumRef }

/-- Whether values are numbers, truth values or discriminants. -/
def isScalar (t : TypeDesc) : Bool := t.base.isScalar

/-- Whether values are strings. -/
def isString (t : TypeDesc) : Bool := t.base == .string

/-- Whether values are vectors. -/
def isVector (t : TypeDesc) : Bool := t.base == .vector

/-- Whether values are arrays of a fixed length. -/
def isArray (t : TypeDesc) : Bool := t.base == .array

/-- Whether values are fixed structs or tables. -/
def isStruct (t : TypeDesc) : Bool := t.base == .struct

/-- Whether values are payloads of a union. -/
def isUnion (t : TypeDesc) : Bool := t.base == .union

/-- An integer that takes the values of an enum and is no discriminant. -/
def isEnum (t : TypeDesc) : Bool :=
  t.enumRef.isSome && t.base.isInteger && t.base != .utype

/-- A vector of union payloads. -/
def isUnionVector (t : TypeDesc) : Bool :=
  t.isVector && t.element == .union

/-- A discriminant, or the vector of discriminants that goes with a vector of payloads. -/
def isDiscriminant (t : TypeDesc) : Bool :=
  t.base == .utype || (t.isVector && t.element == .utype)

/-- The containers around the innermost elements of a type, outermost first, with their lengths. -/
def layers (t : TypeDesc) : List (BaseType × Nat) :=
  if t.base.isContainer then
    (t.base, t.length) :: (if t.element.isContainer then [(t.element, 0)] else [])
  else []

/-- The type of the innermost elements: the type itself if it is no container. -/
def innermost (t : TypeDesc) : TypeDesc :=
  if t.base.isContainer then
    if t.element.isContainer then t.elementType.elementType else t.elementType
  else t

end TypeDesc

end FlatSchema
