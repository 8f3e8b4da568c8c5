import FlatSchema.Proofs.DocComments
import FlatSchema.Proofs.TypeText

/-!
# Reading a text of the schema language

A text of the schema language is read character by character: comments and texts in quotes are skipped, and at the outermost level words
are collected up to a semicolon or a brace. What is found so are the statements that change the namespace and the heads of
definitions (`Fbs.items`). A reader goes on where it stopped (`Reader.read_append`), so that what is found in a text is known from its
parts. Text that neither opens nor closes anything leaves a reader where it was (`Passes`), and code is read by the lines that a writer
makes of it (`Reads`).
-/

namespace FlatSchema.Fbs

open Code

/-! ## The reader -/

/-- What is found at the outermost level of a text. -/
inductive Item
  | scope (n : Namespace)
  | definition (name : String)
deriving DecidableEq, Repr

/-- What the next character belongs to. -/
inductive Mode
  | plain
  /-- The character before was a slash. -/
  | slash
  /-- A comment up to the end of the line. -/
  | comment
  /-- A comment up to its closing mark. -/
  | block
  /-- The character before was a star in such a comment. -/
  | star
  | quote
  /-- The character before was a backslash in quotes. -/
  | escape
deriving DecidableEq, Repr

/-- A reader in a text: the words of the statement that it is in, the last of which may go on, and what it has found. -/
structure Reader where
  mode : Mode := .plain
  /-- The number of braces that are open. -/
  depth : Nat := 0
  words : List (List Char) := []
  word : List Char := []
  items : List Item := []
deriving DecidableEq, Repr

/-- The words that start a definition. -/
def definitionWords : List (List Char) := ["enum".toList, "union".toList, "struct".toList, "table".toList]

/-- What a statement says that ends with a semicolon. -/
def statement? : List (List Char) → Option Item
  | [] => none
  | word :: names =>
    if word = "namespace".toList then some (.scope (Namespace.ofDotted (String.ofList names.flatten))) else none

/-- What a statement says that goes on between braces. -/
def head? : List (List Char) → Option Item
  | word :: name :: _ => if word ∈ definitionWords then some (.definition (String.ofList name)) else none
  | _ => none

namespace Reader

/-- The words of a statement, with an end to the last one. -/
def closed (r : Reader) : List (List Char) := if r.word.isEmpty then r.words else r.words ++ [r.word]

/-- Reads a character outside of comments and quotes. Words count at the outermost level only. -/
def readPlain (r : Reader) (c : Char) : Reader :=
  if c = '/' then { r with mode := .slash, words := r.closed, word := [] }
  else if c = '"' then { r with mode := .quote, words := r.closed, word := [] }
  else if c = '\x7b' then
    { depth := r.depth + 1, items := r.items ++ if r.depth = 0 then (head? r.closed).toList else [] }
  else if c = '\x7d' then { depth := r.depth - 1, items := r.items }
  else if r.depth ≠ 0 then r
  else if c = ';' then { items := r.items ++ (statement? r.closed).toList }
  else if isNameChar c then { r with word := r.word ++ [c] }
  else { r with words := r.closed, word := [] }

/-- Reads a character. -/
def step (r : Reader) (c : Char) : Reader :=
  match r.mode with
  | .plain => r.readPlain c
  | .slash =>
    if c = '/' then { r with mode := .comment }
    else if c = '*' then { r with mode := .block }
    else { r with mode := .plain }.readPlain c
  | .comment => if c = '\n' then { r with mode := .plain } else r
  | .block => if c = '*' then { r with mode := .star } else r
  | .star => if c = '/' then { r with mode := .plain } else if c = '*' then r else { r with mode := .block }
  | .quote => if c = '"' then { r with mode := .plain } else if c = '\\' then { r with mode := .escape } else r
  | .escape => { r with mode := .quote }

/-- Reads a text. -/
def read (r : Reader) (s : List Char) : Reader := s.foldl step r

/-- A reader between statements. -/
def idle (depth : Nat) (items : List Item) : Reader := { depth, items }

@[simp] theorem read_nil (r : Reader) : r.read [] = r := rfl

/-- A reader goes on where it stopped. -/
theorem read_append (r : Reader) (a b : List Char) : r.read (a ++ b) = (r.read a).read b := List.foldl_append

theorem read_cons (r : Reader) (c : Char) (s : List Char) : r.read (c :: s) = (r.step c).read s := rfl

end Reader

/-- The statements that change the namespace and the definitions of a text, in order. -/
def items (text : String) : List Item := (Reader.read {} text.toList).items

/-- The definitions and the namespaces that are in effect where they stand. A statement replaces the one before. -/
def effective : Namespace → List Item → List (Namespace × String)
  | _, [] => []
  | _, .scope n :: rest => effective n rest
  | n, .definition name :: rest => (n, name) :: effective n rest

open Reader

/-! ## Characters -/

/-- A character that opens and closes nothing, and ends neither a statement nor a line. -/
def isQuiet (c : Char) : Bool := !(['/', '"', '\x7b', '\x7d', ';', '\n'].contains c)

/-- A text of quiet characters. -/
def Quiet (s : List Char) : Prop := ∀ c ∈ s, isQuiet c = true

instance (s : List Char) : Decidable (Quiet s) := decidable_of_iff (s.all isQuiet = true) List.all_eq_true

/-- A text that can stand in quotes as it is. -/
def Quotable (s : List Char) : Prop := '"' ∉ s ∧ '\\' ∉ s ∧ '\n' ∉ s

instance (s : List Char) : Decidable (Quotable s) := inferInstanceAs (Decidable (_ ∧ _ ∧ _))

/-- The characters that are not quiet: those that open or close comments, quotes, bodies, statements and lines. -/
theorem isQuiet_iff {c : Char} : isQuiet c = true ↔ c ≠ '/' ∧ c ≠ '"' ∧ c ≠ '\x7b' ∧ c ≠ '\x7d' ∧ c ≠ ';' ∧ c ≠ '\n' := by
  simp [isQuiet]

/-- The characters of names are quiet. -/
theorem isQuiet_of_isNameChar {c : Char} (h : isNameChar c = true) : isQuiet c = true := by
  rw [isQuiet_iff]
  refine ⟨?_, ?_, ?_, ?_, ?_, ?_⟩ <;>
  · rintro rfl
    revert h
    decide

theorem NameText.quiet {s : List Char} (h : NameText s) : Quiet s := fun c hc => isQuiet_of_isNameChar (h c hc)

/-- An identifier is quiet. -/
theorem quiet_of_isIdentifier {s : String} (h : isIdentifier s = true) : Quiet s.toList := by
  obtain ⟨_, _, _, hword⟩ := isIdentifier_chars h
  exact fun c hc => isQuiet_of_isNameChar (by simp [isNameChar, hword c hc])

theorem Quiet.append {a b : List Char} (ha : Quiet a) (hb : Quiet b) : Quiet (a ++ b) := List.forall_mem_append.2 ⟨ha, hb⟩

/-! ## Text that passes -/

/-- A reader behind some words of a statement at the outermost level, which it keeps. -/
structure Behind (words : List (List Char)) (items : List Item) (r : Reader) : Prop where
  mode : r.mode = .plain
  depth : r.depth = 0
  words : words <+: r.words
  items : r.items = items

/-- Text in a line that leaves a reader where it was: unmoved inside of braces, and behind the same words outside. -/
structure Passes (s : List Char) : Prop where
  noBreak : '\n' ∉ s
  inside : ∀ n is, (idle (n + 1) is).read s = idle (n + 1) is
  outside : ∀ ws is r, Behind ws is r → Behind ws is (r.read s)

namespace Passes

/-- Text that is passed over, one part after the other. -/
theorem append {a b : List Char} (ha : Passes a) (hb : Passes b) : Passes (a ++ b) where
  noBreak := by
    rw [List.mem_append, not_or]
    exact ⟨ha.noBreak, hb.noBreak⟩
  inside n is := by rw [read_append, ha.inside, hb.inside]
  outside ws is r h := by
    rw [read_append]
    exact hb.outside ws is _ (ha.outside ws is r h)

theorem nil : Passes [] := ⟨List.not_mem_nil, fun _ _ => rfl, fun _ _ _ h => h⟩

/-- Ending a word only adds to the words. -/
theorem prefix_closed {ws : List (List Char)} {r : Reader} (h : ws <+: r.words) : ws <+: r.closed := by
  unfold closed
  split
  · exact h
  · exact h.trans (List.prefix_append _ _)

/-- A quiet character is passed over. -/
theorem of_isQuiet {c : Char} (h : isQuiet c = true) : Passes [c] := by
  obtain ⟨hslash, hquote, hopen, hclose, hend, hbreak⟩ := isQuiet_iff.1 h
  refine ⟨fun hmem => hbreak (List.mem_singleton.1 hmem).symm, fun n is => ?_, fun ws is r hr => ?_⟩
  · show readPlain _ c = _
    simp [readPlain, idle, hslash, hquote, hopen, hclose]
  · obtain ⟨hmode, hdepth, hwords, hitems⟩ := hr
    have hstep : r.read [c] = r.readPlain c := by
      show r.step c = _
      rw [step, hmode]
    rw [hstep]
    unfold readPlain
    simp only [hslash, hquote, hopen, hclose, hend, hdepth, if_false, ne_eq, not_true_eq_false]
    split
    · exact ⟨hmode, rfl, hwords, hitems⟩
    · exact ⟨hmode, rfl, prefix_closed hwords, hitems⟩

/-- Quiet text is passed over. -/
theorem of_quiet {s : List Char} (h : Quiet s) : Passes s := by
  induction s with
  | nil => exact nil
  | cons c s ih =>
    obtain ⟨hc, hs⟩ := List.forall_mem_cons.1 h
    exact (of_isQuiet hc).append (ih hs)

/-- In quotes a reader stays where it is up to the next mark. -/
theorem read_quote {s : List Char} (hquote : '"' ∉ s) (hescape : '\\' ∉ s) {r : Reader} (hr : r.mode = .quote) : r.read s = r := by
  induction s with
  | nil => rfl
  | cons c s ih =>
    rw [List.mem_cons, not_or] at hquote hescape
    have hstep : r.step c = r := by
      simp [step, hr, Ne.symm hquote.1, Ne.symm hescape.1]
    rw [read_cons, hstep]
    exact ih hquote.2 hescape.2

/-- A text in quotes is passed over if it closes them nowhere. -/
theorem quoted {s : List Char} (h : Quotable s) : Passes ('"' :: (s ++ ['"'])) := by
  obtain ⟨hquote, hescape, hbreak⟩ := h
  -- the first mark ends a word and the second one leads back
  have hread : ∀ r : Reader, r.mode = .plain → r.read ('"' :: (s ++ ['"'])) = { r with words := r.closed, word := [] } := by
    intro r hr
    have hopen : r.step '"' = { r with mode := .quote, words := r.closed, word := [] } := by
      rw [step, hr]
      simp [readPlain]
    rw [read_cons, hopen, read_append, read_quote hquote hescape rfl, read_cons]
    simp [step, hr]
  refine ⟨by simp [hbreak], fun n is => hread _ rfl, fun ws is r hr => ?_⟩
  rw [hread r hr.mode]
  exact ⟨hr.mode, hr.depth, prefix_closed hr.words, hr.items⟩

/-- Texts with a separator between them are passed over. -/
theorem intercalate {separator : String} (hseparator : Passes separator.toList) : ∀ {ss : List String},
    (∀ s ∈ ss, Passes s.toList) → Passes (separator.intercalate ss).toList
  | [], _ => nil
  | [s], h => by
    rw [String.intercalate_singleton]
    exact h s List.mem_cons_self
  | s :: s' :: ss, h => by
    have hrest : Passes (separator.intercalate (s' :: ss)).toList := intercalate hseparator fun x hx => h x (List.mem_cons_of_mem s hx)
    rw [String.intercalate_cons_cons, String.toList_append, String.toList_append]
    exact ((h s List.mem_cons_self).append hseparator).append hrest

end Passes

/-! ## Words, comments and ends -/

/-- The characters of names are collected at the outermost level. -/
theorem read_word {s : List Char} (h : NameText s) : ∀ {r : Reader}, r.mode = .plain → r.depth = 0 →
    r.read s = { r with word := r.word ++ s } := by
  induction s with
  | nil =>
    intro r _ _
    simp
  | cons c s ih =>
    intro r hmode hdepth
    obtain ⟨hc, hs⟩ := List.forall_mem_cons.1 h
    obtain ⟨hslash, hquote, hopen, hclose, hend, _⟩ := isQuiet_iff.1 (isQuiet_of_isNameChar hc)
    have hstep : r.step c = { r with word := r.word ++ [c] } := by
      rw [step, hmode]
      simp [readPlain, hslash, hquote, hopen, hclose, hend, hdepth, hc, hmode]
    rw [read_cons, hstep, ih hs (r := { r with word := r.word ++ [c] }) hmode hdepth]
    simp

/-- A word that is followed by a blank is one of the words. -/
theorem behind_word {w : List Char} (hw : NameText w) (hne : w ≠ []) {ws : List (List Char)} {is : List Item} :
    ({ words := ws, items := is } : Reader).read (w ++ [' ']) = { words := ws ++ [w], items := is } := by
  have hblank : isNameChar ' ' = false := by decide
  rw [read_append, read_word hw rfl rfl, read_cons]
  simp [step, readPlain, closed, hne, hblank]

/-- Blanks between statements are skipped. -/
theorem read_blanks {s : List Char} (h : ∀ c ∈ s, c = ' ' ∨ c = '\n') (n : Nat) (is : List Item) : (idle n is).read s = idle n is := by
  induction s with
  | nil => rfl
  | cons c s ih =>
    obtain ⟨hc, hs⟩ := List.forall_mem_cons.1 h
    have hstep : (idle n is).step c = idle n is := by
      rcases hc with rfl | rfl <;> cases n <;> rfl
    rw [read_cons, hstep, ih hs]

/-- A comment goes on up to the end of its line. -/
theorem read_inComment {s : List Char} (h : '\n' ∉ s) {r : Reader} (hr : r.mode = .comment) : r.read s = r := by
  induction s with
  | nil => rfl
  | cons c s ih =>
    rw [List.mem_cons, not_or] at h
    have hstep : r.step c = r := by simp [step, hr, Ne.symm h.1]
    rw [read_cons, hstep]
    exact ih h.2

/-- A comment between statements is skipped. -/
theorem read_comment {s : List Char} (h : '\n' ∉ s) (n : Nat) (is : List Item) :
    (idle n is).read ('/' :: '/' :: (s ++ ['\n'])) = idle n is := by
  have hopen : ((idle n is).step '/').step '/' = { idle n is with mode := .comment } := rfl
  rw [read_cons, read_cons, hopen, read_append, read_inComment h rfl]
  rfl

/-- A brace behind the words of a head opens the definition. -/
theorem Behind.open {word name : List Char} {is : List Item} {r : Reader} (h : Behind [word, name] is r)
    (hword : word ∈ definitionWords) : r.step '\x7b' = idle 1 (is ++ [.definition (String.ofList name)]) := by
  obtain ⟨rest, hrest⟩ := Passes.prefix_closed h.words
  have hhead : head? r.closed = some (.definition (String.ofList name)) := by
    rw [← hrest]
    exact if_pos hword
  rw [step, h.mode]
  simp [readPlain, h.depth, h.items, hhead, idle]

/-- A semicolon behind another word ends a statement that says nothing. -/
theorem Behind.close {word : List Char} {is : List Item} {r : Reader} (h : Behind [word] is r) (hword : word ≠ "namespace".toList) :
    r.step ';' = idle 0 is := by
  obtain ⟨rest, hrest⟩ := Passes.prefix_closed h.words
  have hnone : statement? r.closed = none := by
    rw [← hrest]
    exact if_neg hword
  rw [step, h.mode]
  simp [readPlain, h.depth, h.items, hnone, idle]

/-! ## Texts between statements -/

/-- A text that starts and ends between statements at the outermost level, with what is found in it. -/
def ReadsAs (text : String) (found : List Item) : Prop := ∀ is, (idle 0 is).read text.toList = idle 0 (is ++ found)

namespace ReadsAs

/-- What is found in two texts one after the other. -/
theorem append {a b : String} {x y : List Item} (ha : ReadsAs a x) (hb : ReadsAs b y) : ReadsAs (a ++ b) (x ++ y) := by
  intro is
  rw [String.toList_append, read_append, ha, hb, List.append_assoc]

/-- What a text is read as is what it is found to hold. -/
theorem items_eq {text : String} {found : List Item} (h : ReadsAs text found) : items text = found := by
  have hread := h []
  rw [List.nil_append] at hread
  exact congrArg Reader.items hread

end ReadsAs

/-! ## Code -/

/-- Code that is read, wherever it is written, from one depth to another, with what is found in it. -/
def Reads (c : Code) (n : Nat) (found : List Item) (m : Nat) : Prop :=
  ∀ w : Writer, w.values = [] → w.pending = false → (∀ x ∈ w.unit.toList, x = ' ') → ∃ text,
    w.run c = { w with text := w.text ++ text } ∧ ∀ is, (idle n is).read text.toList = idle m (is ++ found)

namespace Reads

variable {a b c : Code} {n m k : Nat} {x y : List Item}

theorem nil : Reads [] n [] n := fun w _ _ _ => ⟨"", by simp [Writer.run], fun is => by simp⟩

/-- Code is read one part after the other, from indentation to indentation. -/
theorem append (ha : Reads a n x m) (hb : Reads b m y k) : Reads (a ++ b) n (x ++ y) k := by
  intro w hvalues hpending hunit
  obtain ⟨first, hfirst, hreadFirst⟩ := ha w hvalues hpending hunit
  obtain ⟨second, hsecond, hreadSecond⟩ := hb { w with text := w.text ++ first } hvalues hpending hunit
  refine ⟨first ++ second, ?_, fun is => ?_⟩
  · rw [Writer.run_append, hfirst, hsecond, String.append_assoc]
  · rw [String.toList_append, read_append, hreadFirst, hreadSecond, List.append_assoc]

/-- Indentation is passed over. -/
theorem indented (h : Reads c n x m) : Reads (indented c) n x m := by
  intro w hvalues hpending hunit
  obtain ⟨text, hrun, hread⟩ := h { w with level := w.level + 1 } hvalues hpending hunit
  refine ⟨text, ?_, hread⟩
  have hsplit : Code.indented c = [.indent] ++ (c ++ [.dedent]) := rfl
  have hindent : w.run [.indent] = { w with level := w.level + 1 } := rfl
  rw [hsplit, Writer.run_append, hindent, Writer.run_append, hrun]
  rfl

/-- A line that is not continued is read behind its indentation. -/
theorem line {p : Phrase} (hbreak : '\n' ∉ p.text.toList) (hlast : p.text.toList.getLast? ≠ some '\\')
    (h : ∀ is, (idle n is).read (p.text.toList ++ ['\n']) = idle m (is ++ x)) : Reads (Code.line p) n x m := by
  intro w hvalues hpending hunit
  have hindent : ∀ c ∈ w.indentation.toList, c = ' ' ∨ c = '\n' := by
    intro c hc
    rw [Writer.indentation, String.toList_join] at hc
    obtain ⟨unit, hmem, hc⟩ := List.mem_flatMap.1 hc
    rw [List.eq_of_mem_replicate hmem] at hc
    exact .inl (hunit c hc)
  have hrun : w.run (Code.line p) = w.line p.text := rfl
  rw [hrun, Writer.line_clean hvalues hpending hbreak hlast]
  refine ⟨_, rfl, fun is => ?_⟩
  by_cases hempty : p.text = ""
  · have hread := h is
    rw [hempty] at hread
    simpa [hempty] using hread
  · have hread := h is
    simp only [String.isEmpty_iff, hempty, if_false, String.toList_append, List.append_assoc]
    rw [read_append, read_blanks hindent]
    exact hread

/-- A blank line is passed over. -/
theorem blank : Reads Code.blank n [] n := by
  refine line (p := "") List.not_mem_nil (by simp) fun is => ?_
  rw [List.append_nil]
  exact read_blanks (by simp) n is

/-- A line of documentation is a comment. -/
theorem commentLine {d : String} (h : Writer.OneLine [] d) : Reads (Code.line (Writer.commentLine "/// " d)) n [] n := by
  have hbreak : '\n' ∉ (Writer.commentLine "/// " d).toList := by
    obtain ⟨lead, hlead, _, hline⟩ := Writer.commentLine_eq (show "/// " ∈ Writer.commentMarks by decide) d
    rw [hline, List.mem_append, not_or]
    exact ⟨hlead.noBreak, h.1⟩
  have hpiece : (Writer.commentLine "/// " d).toList ∈
      ((Writer.commentLine "/// " d).toList.splitOn '\n').map (Writer.substitute []) := by
    rw [List.splitOn_eq_singleton hbreak, List.map_singleton, Writer.substitute_nil]
    exact List.mem_cons_self
  obtain ⟨_, hlast, rest, hrest⟩ := h.pieces (by decide) _ hpiece
  have hmark : (trimmedEnd "/// ").toList = ['/', '/', '/'] := by decide
  rw [hmark] at hrest
  generalize Writer.commentLine "/// " d = text at hbreak hlast hrest
  have hinner : '\n' ∉ '/' :: rest := fun hmem => hbreak (hrest ▸ List.mem_cons_of_mem _ (List.mem_cons_of_mem _ hmem))
  refine line hbreak hlast fun is => ?_
  rw [List.append_nil, ← hrest]
  exact read_comment hinner n is

/-- Documentation in single lines is skipped. -/
theorem docs {doc : List String} (h : ∀ d ∈ doc, Writer.OneLine [] d) : Reads (docs doc) n [] n := by
  induction doc with
  | nil => exact fun w _ _ _ => ⟨"", by simp [Fbs.docs, Code.comment, Writer.run, Writer.step, Writer.comment], fun is => by simp⟩
  | cons d doc ih =>
    obtain ⟨hd, hdoc⟩ := List.forall_mem_cons.1 h
    have hcons : ∀ w : Writer, w.run (Fbs.docs (d :: doc)) = w.run (Code.line (Writer.commentLine "/// " d) ++ Fbs.docs doc) := by
      intro w
      have hdocs : ∀ (v : Writer) (doc : List String), v.run (Fbs.docs doc) = v.comment "/// " doc := fun _ _ => rfl
      have hline : ∀ p : Phrase, w.run (Code.line p) = w.line p.text := fun _ => rfl
      rw [Writer.run_append, hline, hdocs, hdocs, Writer.comment, List.foldl_cons, Writer.comment]
    intro w hvalues hpending hunit
    rw [hcons]
    exact ((commentLine hd).append (ih hdoc)) w hvalues hpending hunit

end Reads

end FlatSchema.Fbs
