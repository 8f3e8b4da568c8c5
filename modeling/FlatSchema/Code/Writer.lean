import FlatSchema.Text.Blank

/-!
# Writing code

A writer collects lines at an indentation. In every line, a key between double braces for which a value was set is replaced by
the value. A line that ends with a backslash is continued by the next one. `substitute` looks at every character once: what it
puts in is not looked at again.
-/

namespace FlatSchema

/-- Code while it is written. -/
structure Writer where
  /-- One step of indentation. -/
  unit : String := "    "
  level : Nat := 0
  /-- The last line is to be continued. -/
  pending : Bool := false
  /-- The values that replace keys; the first entry for a key counts. -/
  values : List (String × String) := []
  text : String := ""
deriving Repr, Inhabited

namespace Writer

/-- The parts of a text before and after the first two adjacent occurrences of a character. -/
def cutPair (c : Char) : List Char → Option (List Char × List Char)
  | a :: b :: rest =>
    if a = c ∧ b = c then some ([], rest)
    else (cutPair c (b :: rest)).map fun (before, after) => (a :: before, after)
  | _ => none

/-- Cutting at a pair loses its two characters and nothing else. -/
theorem cutPair_length {c : Char} {s before after : List Char} (h : cutPair c s = some (before, after)) :
    before.length + after.length + 2 = s.length := by
  fun_induction cutPair c s generalizing before with
  | case1 a b rest hc =>
    simp only [Option.some.injEq, Prod.mk.injEq] at h
    simp [← h.1, ← h.2]
  | case2 a b rest hc ih =>
    obtain ⟨⟨p, q⟩, hp, hq⟩ := Option.map_eq_some_iff.1 h
    simp only [Prod.mk.injEq] at hq
    have := ih (hq.2 ▸ hp)
    simp only [← hq.1, List.length_cons] at this ⊢
    omega
  | case3 => simp at h

/-- What a key between double braces stands for: its value, or itself if it has none. -/
def expansion (values : List (String × String)) (key : List Char) : List Char :=
  match values.lookup (String.ofList key) with
  | some v => v.toList
  | none => '\x7b' :: '\x7b' :: (key ++ ['\x7d', '\x7d'])

/-- Replaces the keys of a text by their values. -/
def substitute (values : List (String × String)) (s : List Char) : List Char :=
  match h : cutPair '\x7b' s with
  | none => s
  | some (before, rest) =>
    match h' : cutPair '\x7d' rest with
    | none => s
    | some (key, after) =>
      have : after.length < s.length := by
        have := cutPair_length h
        have := cutPair_length h'
        omega
      before ++ expansion values key ++ substitute values after
termination_by s.length

/-- The blanks in front of a line. -/
def indentation (w : Writer) : String :=
  String.join (List.replicate w.level w.unit)

/-- Sets the value of a key. -/
def set (w : Writer) (key value : String) : Writer :=
  { w with values := (key, value) :: w.values }

/-- The value of a key. -/
def value? (w : Writer) (key : String) : Option String := w.values.lookup key

/-- Appends one line that holds no line break. -/
def putLine (w : Writer) (raw : List Char) : Writer :=
  let s := substitute w.values raw
  if s.isEmpty && !w.pending then { w with text := w.text ++ "\n" }
  else
    let lead := if w.pending then "" else w.indentation
    if s.getLast? = some '\\' then { w with text := w.text ++ lead ++ String.ofList s.dropLast, pending := true }
    else { w with text := w.text ++ lead ++ String.ofList s ++ "\n", pending := false }

/-- Appends the lines of a text. -/
def line (w : Writer) (text : String) : Writer :=
  (text.toList.splitOn '\n').foldl putLine w

/-- Appends an empty line. -/
def blank (w : Writer) : Writer := w.line ""

/-- A line of documentation behind the mark of a comment. -/
def commentLine (mark doc : String) : String :=
  let d := trimmedEnd doc
  if d.isEmpty then trimmedEnd mark else mark ++ d

/-- Appends documentation lines behind the mark of a comment. -/
def comment (w : Writer) (mark : String) (docs : List String) : Writer :=
  docs.foldl (fun w d => w.line (commentLine mark d)) w

/-- Appends a text as it is. -/
def raw (w : Writer) (text : String) : Writer :=
  { w with text := w.text ++ text, pending := false }

/-- Goes one step deeper. -/
def indent (w : Writer) : Writer := { w with level := w.level + 1 }

/-- Goes one step back; the outermost level stays. -/
def dedent (w : Writer) : Writer := { w with level := w.level - 1 }

end Writer

/-- The number of lines of a text. A line break at the end starts no new line. -/
def lineCount (text : String) : Nat :=
  let s := text.toList
  let breaks := s.count '\n'
  if s.isEmpty || s.getLast? == some '\n' then breaks else breaks + 1

end FlatSchema
