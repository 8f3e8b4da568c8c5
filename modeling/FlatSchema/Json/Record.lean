import FlatSchema.Json.Basic

/-!
# Records in JSON

A record is written as an object, or as an array of its members in declaration order. These are the readers of its members:
one for each kind of value, and the ways in which a member may be left out.
-/

namespace FlatSchema.Json

/-- Whether some text occurs twice. -/
def repeats : List String → Bool
  | [] => false
  | k :: ks => ks.contains k || repeats ks

/-- The members of a record in declaration order, `none` for those left out. An object holds no unknown and no repeated member;
an array may stop early and holds nothing after the last member. -/
def record? (names : List String) : Json → Option (List (Option Json))
  | .object ms =>
    let keys := ms.map (·.1)
    if keys.all names.contains && !repeats keys then some (names.map (fun n => ms.lookup n)) else none
  | .array items =>
    if items.length ≤ names.length then some (items.map some ++ List.replicate (names.length - items.length) none) else none
  | _ => none

/-- A member that has to be there. -/
def required (read : Json → Option α) : Option Json → Option α
  | some v => read v
  | none => none

/-- A member with a default. -/
def defaulted (d : α) (read : Json → Option α) : Option Json → Option α
  | some v => read v
  | none => some d

/-- A member that may be missing or null. -/
def optional (read : Json → Option α) : Option Json → Option (Option α)
  | some .null => some none
  | some v => (read v).map some
  | none => some none

/-- Reads a string. -/
def string? : Json → Option String
  | .string s => some s
  | _ => none

/-- Reads a boolean. -/
def bool? : Json → Option Bool
  | .bool b => some b
  | _ => none

/-- Reads a signed 64-bit integer. -/
def int64? : Json → Option Int64
  | .number (.int v) => if -Int.pow 2 63 ≤ v ∧ v < Int.pow 2 63 then some (.ofInt v) else none
  | _ => none

/-- Reads an array of values of one kind. -/
def list? (read : Json → Option α) : Json → Option (List α)
  | .array items => items.mapM read
  | _ => none

mutual

/-- A value in which every object has each key once: the first place and the last value of a repeated key stay. -/
def merged : Json → Json
  | .null => .null
  | .bool b => .bool b
  | .number n => .number n
  | .string s => .string s
  | .array items => .array (mergedItems items)
  | .object members => .object (mergedMembers [] members)

/-- The items of an array, each with its objects merged. -/
def mergedItems : List Json → List Json
  | [] => []
  | v :: items => merged v :: mergedItems items

/-- Puts the members of an object, one after the other, behind those that are there. -/
def mergedMembers (done : List (String × Json)) : List (String × Json) → List (String × Json)
  | [] => done
  | (k, v) :: members => mergedMembers (put done k (merged v)) members

end

end FlatSchema.Json
