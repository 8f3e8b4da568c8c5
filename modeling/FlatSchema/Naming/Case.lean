/-!
# Cases of identifiers

Converting identifiers between the ways of writing words in one name. Only ASCII letters have a case.
-/

namespace FlatSchema

/-- A way of writing the words of an identifier. -/
inductive Case
  | keep
  | upperCamel
  | lowerCamel
  | snake
  | screamingSnake
  | allLower
  | allUpper
deriving DecidableEq, Repr, Inhabited

namespace Case

/-- All cases with their names. -/
def named : List (String × Case) :=
  [("keep", .keep), ("upper_camel", .upperCamel), ("lower_camel", .lowerCamel), ("snake", .snake),
    ("screaming_snake", .screamingSnake), ("all_lower", .allLower), ("all_upper", .allUpper)]

/-- Camel case after the first character. An underscore that is not the last character is dropped, and the character after it
is a capital. -/
def camelRest (capital : Bool) : List Char → List Char
  | [] => []
  | c :: rest =>
    if c = '_' && !rest.isEmpty then camelRest true rest
    else (if capital then c.toUpper else c) :: camelRest false rest

/-- Camel case with a given form of the first character. -/
def camel (first : Char → Char) : List Char → List Char
  | [] => []
  | c :: rest => first c :: camelRest false rest

/-- Whether a new word starts at a capital, judged by the characters around it. -/
def startsWord (previous : Char) (rest : List Char) : Bool :=
  previous.isLower || previous.isDigit || (previous.isUpper && (rest.head?.map Char.isLower).getD false)

/-- Snake case after the first character. -/
def snakeRest (previous : Char) : List Char → List Char
  | [] => []
  | c :: rest =>
    if c.isUpper && startsWord previous rest then '_' :: c.toLower :: snakeRest c rest
    else c.toLower :: snakeRest c rest

/-- Snake case: words in lower case with underscores between them. -/
def snakeForm : List Char → List Char
  | [] => []
  | c :: rest => c.toLower :: snakeRest c rest

/-- An identifier in a given case. -/
def convert (k : Case) (s : List Char) : List Char :=
  match k with
  | .keep => s
  | .upperCamel => camel Char.toUpper s
  | .lowerCamel => camel Char.toLower s
  | .snake => snakeForm s
  | .screamingSnake => (snakeForm s).map Char.toUpper
  | .allLower => s.map Char.toLower
  | .allUpper => s.map Char.toUpper

/-- `convert` on strings. -/
def apply (k : Case) (s : String) : String :=
  String.ofList (k.convert s.toList)

end Case

end FlatSchema
