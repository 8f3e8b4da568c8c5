/-!
# Blank characters

The characters that count as white space in names, type expressions and defaults, and the operations that drop them:
trimming either end of a text and cutting a text into its words.
-/

namespace FlatSchema.Text

/-- The 25 code points with the Unicode property `White_Space`. -/
def isBlank (c : Char) : Bool :=
  let n := c.toNat
  (9 ≤ n && n ≤ 13) || n == 0x20 || n == 0x85 || n == 0xA0 || n == 0x1680 || (0x2000 ≤ n && n ≤ 0x200A) ||
    n == 0x2028 || n == 0x2029 || n == 0x202F || n == 0x205F || n == 0x3000

/-- A text without its leading blanks. -/
def trimStart (s : List Char) : List Char :=
  s.dropWhile isBlank

/-- A text without its trailing blanks. -/
def trimEnd (s : List Char) : List Char :=
  (s.reverse.dropWhile isBlank).reverse

/-- A text without the blanks at either end. -/
def trim (s : List Char) : List Char :=
  trimEnd (trimStart s)

/-- The maximal runs of characters that are not blank, from left to right. -/
def words (s : List Char) : List (List Char) :=
  (s.splitOnP isBlank).filter (fun w => !w.isEmpty)

end FlatSchema.Text

namespace FlatSchema

/-- `Text.trim` on strings. -/
def trimmed (s : String) : String :=
  String.ofList (Text.trim s.toList)

/-- `Text.trimEnd` on strings. -/
def trimmedEnd (s : String) : String :=
  String.ofList (Text.trimEnd s.toList)

end FlatSchema
