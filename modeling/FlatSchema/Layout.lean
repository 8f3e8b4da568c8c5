import FlatSchema.Schema.Error
import FlatSchema.Schema.Graph

/-!
# Layout

Where the fields of structs and tables stand. A table field has a place in the table of offsets, two bytes for each field
after the first four. A fixed struct puts its fields one after the other, each at a multiple of its alignment; the bytes left
between them are padding of the field before. Structs inside a struct are laid out first, and none may contain itself.
-/

namespace FlatSchema.Layout

/-- The greatest offset of a field. -/
def maxOffset : Nat := 65535

/-- The greatest alignment that a struct may ask for. -/
def maxForcedAlignment : Nat := 16

/-- The bytes that bring a position up to a multiple of an alignment. -/
def paddingFor (position alignment : Nat) : Nat :=
  (alignment - position % alignment) % alignment

/-- Gives the fields of a table their places in the table of offsets, starting from a slot. -/
def placeSlots (table : String) : Nat → List FieldDef → Except LoadError (List FieldDef)
  | _, [] => .ok []
  | slot, f :: rest =>
    let offset := 4 + 2 * slot
    if maxOffset < offset then .error (.violation (.manyFields table))
    else do
      let placed ← placeSlots table (slot + 1) rest
      return { f with offset } :: placed

/-- Gives the fields of a fixed struct their offsets and the padding between them, starting at a position that suits the
first of them. The result ends at the second component, where the last field ends. -/
def placeFields (structs : List StructDef) (owner : String) : Nat → List FieldDef → Except LoadError (List FieldDef × Nat)
  | position, [] => .ok ([], position)
  | position, f :: rest =>
    if maxOffset < position then .error (.violation (.largeStruct owner))
    else do
      let stop := position + inlineSize structs f.type
      let padding := match rest with
        | [] => 0
        | g :: _ => paddingFor stop (inlineAlignment structs g.type)
      let (placed, size) ← placeFields structs owner (stop + padding) rest
      return ({ f with offset := position, padding := f.padding + padding } :: placed, size)

/-- The greatest alignment of a field. -/
def naturalAlignment (structs : List StructDef) (fields : List FieldDef) : Nat :=
  fields.foldl (fun a f => max a (inlineAlignment structs f.type)) 1

/-- Whether a number is a power of two. -/
def isPowerOfTwo (n : Nat) : Bool :=
  n != 0 && Nat.pow 2 (Nat.log2 n) == n

/-- The alignment of a fixed struct: that of its fields, or a greater one that it asks for. -/
def alignment (s : StructDef) (natural : Nat) : Except LoadError Nat :=
  match s.attributes.get? "force_align" with
  | none => .ok natural
  | some raw =>
    let context := s!"{s.name}.force_align"
    match readUnsigned? 64 (trimmed raw) with
    | none => .error (.invalidValue raw context .notNumber)
    | some n =>
      if isPowerOfTwo n && natural ≤ n && n ≤ maxForcedAlignment then .ok n
      else .error (.invalidValue (toString n) context (.alignment natural maxForcedAlignment))

/-- Adds padding after the last field. -/
def padLast (padding : Nat) : List FieldDef → List FieldDef
  | [] => []
  | [f] => [{ f with padding := f.padding + padding }]
  | f :: g :: rest => f :: padLast padding (g :: rest)

/-- Lays out a fixed struct whose parts are laid out. -/
def placeStruct (structs : List StructDef) (s : StructDef) : Except LoadError StructDef := do
  let (placed, stop) ← placeFields structs s.name 0 s.fields
  let align ← alignment s (naturalAlignment structs s.fields)
  let padding := paddingFor stop align
  return { s with fields := padLast padding placed, byteSize := stop + padding, minAlign := align }

/-- The structs that stand inside a fixed struct, as fields or as elements of arrays. -/
def parts (s : StructDef) : List Nat :=
  s.fields.filterMap fun f => if f.type.isStruct || f.type.isArray then f.type.structRef else none

/-- The structs of a schema while they are laid out, and the places of those that are done. -/
structure Progress where
  structs : List StructDef
  done : List Nat

/-- The name by which the struct at some place is reported. -/
def Progress.name (p : Progress) (i : Nat) : String :=
  (p.structs[i]?.map StructDef.qualifiedName).getD ""

/-- A way to lay out a fixed struct whose parts are laid out, given all structs. In what order structs are laid out, and which of them
contain themselves, does not depend on it. -/
abbrev Placer := List StructDef → StructDef → Except LoadError StructDef

/-- Lays out the fixed struct at some place, after the structs inside it. The path holds the structs around it, outermost
first; a struct on the path contains itself. Every step makes the path longer, so the number of structs bounds the depth. -/
def placeFixed (placer : Placer) : Nat → List Nat → Progress → Nat → Except LoadError Progress
  | 0, path, p, i => .error (.circular ((path ++ [i]).map p.name))
  | fuel + 1, path, p, i =>
    if p.done.contains i then .ok p
    else if path.contains i then .error (.circular ((path ++ [i]).map p.name))
    else
      match p.structs[i]? with
      | none => .ok p
      | some s => do
        let isFixed (j : Nat) : Bool := (p.structs[j]?.map (·.fixed)).getD false
        let p ← ((parts s).filter isFixed).foldlM (placeFixed placer fuel (path ++ [i])) p
        let placed ← placer p.structs s
        return { structs := p.structs.set i placed, done := i :: p.done }

/-- Lays out the struct or table at some place. -/
def place (placer : Placer) (p : Progress) (i : Nat) : Except LoadError Progress :=
  match p.structs[i]? with
  | none => .ok p
  | some s =>
    if s.fixed then placeFixed placer (p.structs.length + 1) [] p i
    else do
      let fields ← placeSlots s.name 0 s.fields
      return { p with structs := p.structs.set i { s with fields } }

/-- Lays out all structs and tables of a schema in a given way. -/
def placeAllBy (placer : Placer) (structs : List StructDef) : Except LoadError (List StructDef) := do
  let p ← (List.range structs.length).foldlM (place placer) { structs, done := [] }
  return p.structs

/-- Lays out all structs and tables of a schema. -/
def placeAll (structs : List StructDef) : Except LoadError (List StructDef) := placeAllBy placeStruct structs

end FlatSchema.Layout
