import FlatSchema.Proofs.CodeShape
import Mathlib.Data.List.Infix

/-!
# Writers only append

What a writer has written stays in front of what it writes next (`Writer.run_onto`), so that code after settled code is written as
if it stood alone (`Writer.render_append`). A word without a line break that stands in a line stands in the text, even if the line is
broken or continued (`Writer.infix_run`). Code that is made of single lines is written as these lines, each behind its indentation
(`Writer.run_clean`), and they are read back from the text (`Writer.splitOn_render`).
-/

namespace FlatSchema

namespace Writer

/-! ## Text in front -/

/-- A writer with more text in front of its own. -/
def onto (w : Writer) (lead : String) : Writer := { w with text := lead ++ w.text }

theorem eq_onto (w : Writer) : w = { w with text := "" }.onto w.text := by
  simp [onto]

/-- A line is put behind the text in front. -/
theorem putLine_onto (w : Writer) (lead : String) (s : List Char) : (w.onto lead).putLine s = (w.putLine s).onto lead := by
  have hindent : (w.onto lead).indentation = w.indentation := rfl
  unfold putLine
  simp only [hindent]
  dsimp only [onto]
  by_cases hempty : ((substitute w.values s).isEmpty && !w.pending) = true
  · simp only [hempty, if_true, String.append_assoc]
  · by_cases hlast : (substitute w.values s).getLast? = some '\\'
    · simp only [hempty, hlast, Bool.false_eq_true, if_false, if_true, String.append_assoc]
      rfl
    · simp only [hempty, hlast, Bool.false_eq_true, if_false, String.append_assoc]
      rfl

theorem foldl_putLine_onto (lead : String) : ∀ (ss : List (List Char)) (w : Writer),
    ss.foldl putLine (w.onto lead) = (ss.foldl putLine w).onto lead
  | [], _ => rfl
  | s :: ss, w => by
    rw [List.foldl_cons, putLine_onto, foldl_putLine_onto lead ss, List.foldl_cons]

theorem line_onto (w : Writer) (lead text : String) : (w.onto lead).line text = (w.line text).onto lead :=
  foldl_putLine_onto lead _ w

theorem comment_onto (lead mark : String) : ∀ (docs : List String) (w : Writer),
    (w.onto lead).comment mark docs = (w.comment mark docs).onto lead
  | [], _ => rfl
  | d :: docs, w => by
    unfold comment
    rw [List.foldl_cons, line_onto, List.foldl_cons]
    exact comment_onto lead mark docs _

/-- No step looks at the text in front. -/
theorem step_onto (w : Writer) (lead : String) (s : Step) : (w.onto lead).step s = (w.step s).onto lead := by
  cases s with
  | set | require | indent | dedent => rfl
  | line p => exact line_onto w lead p.text
  | comment mark docs => exact comment_onto lead mark docs w
  | raw text => simp [step, raw, onto, String.append_assoc]

/-- What is in front of a writer's text stays there and has no influence. -/
theorem run_onto (lead : String) : ∀ (c : Code) (w : Writer), (w.onto lead).run c = (w.run c).onto lead
  | [], _ => rfl
  | s :: c, w => by
    have hcons : ∀ v : Writer, v.run (s :: c) = (v.step s).run c := fun _ => rfl
    rw [hcons, hcons, step_onto, run_onto lead c]

/-- What code adds to a text does not depend on it. -/
theorem run_text (w : Writer) (c : Code) : (w.run c).text = w.text ++ (run { w with text := "" } c).text := by
  conv => lhs; rw [eq_onto w, run_onto]
  rfl

/-! ## What stays the same -/

/-- A line changes neither the unit of indentation nor the values. -/
theorem putLine_values (w : Writer) (s : List Char) : (w.putLine s).unit = w.unit ∧ (w.putLine s).values = w.values := by
  unfold putLine
  dsimp only
  split
  · exact ⟨rfl, rfl⟩
  · split <;> exact ⟨rfl, rfl⟩

theorem foldl_putLine_values (w : Writer) (ss : List (List Char)) :
    (ss.foldl putLine w).unit = w.unit ∧ (ss.foldl putLine w).values = w.values := by
  refine List.foldlRecOn ss putLine (motive := fun v => v.unit = w.unit ∧ v.values = w.values) ⟨rfl, rfl⟩ fun v hv s _ => ?_
  obtain ⟨hunit, hvalues⟩ := putLine_values v s
  exact ⟨hunit.trans hv.1, hvalues.trans hv.2⟩

/-- Comments change neither the unit of indentation nor the values. -/
theorem comment_values (w : Writer) (mark : String) (docs : List String) :
    (w.comment mark docs).unit = w.unit ∧ (w.comment mark docs).values = w.values := by
  refine List.foldlRecOn docs _ (motive := fun v : Writer => v.unit = w.unit ∧ v.values = w.values) ⟨rfl, rfl⟩ fun v hv d _ => ?_
  obtain ⟨hunit, hvalues⟩ := foldl_putLine_values v ((commentLine mark d).toList.splitOn '\n')
  exact ⟨hunit.trans hv.1, hvalues.trans hv.2⟩

/-- A step that sets no value changes none. -/
theorem step_values {s : Step} (h : s.Keyless) (w : Writer) : (w.step s).unit = w.unit ∧ (w.step s).values = w.values := by
  cases s with
  | set => cases h
  | raw | require | indent | dedent => exact ⟨rfl, rfl⟩
  | line p => exact foldl_putLine_values w _
  | comment mark docs => exact comment_values w mark docs

/-- Code that sets no values changes none. -/
theorem run_values {c : Code} (h : ∀ s ∈ c, s.Keyless) (w : Writer) :
    (w.run c).unit = w.unit ∧ (w.run c).values = w.values := by
  refine List.foldlRecOn c step (motive := fun v : Writer => v.unit = w.unit ∧ v.values = w.values) ⟨rfl, rfl⟩ fun v hv s hs => ?_
  obtain ⟨hunit, hvalues⟩ := step_values (h s hs) v
  exact ⟨hunit.trans hv.1, hvalues.trans hv.2⟩

/-- Code behind balanced code that leaves no line to be continued is written as if it stood alone. -/
theorem render_append {a : Code} [ha : a.Balanced Step.Keyless] (hcalm : a.Calm) (unit : String) (b : Code) :
    render unit (a ++ b) = render unit a ++ render unit b := by
  obtain ⟨hunit, hvalues⟩ := run_values (ha.mem trivial trivial) { unit }
  have hlevel : (run { unit } a).level = 0 := level_run (w := { unit }) (ha.level? 0)
  have hpending : (run { unit } a).pending = false := hcalm _ rfl
  have hrest : { run { unit } a with text := "" } = ({ unit } : Writer) := by
    dsimp only
    rw [hunit, hvalues, hlevel, hpending]
  rw [render, run_append, run_text, hrest]
  rfl

end Writer

/-! ## Words in the text -/

/-- A word that does not hold a separator stands on one side of it. -/
theorem infix_of_append_cons {word a b : List Char} {x : Char} (hx : x ∉ word) (h : word <:+: a ++ x :: b) :
    word <:+: a ∨ word <:+: b := by
  obtain ⟨before, after, h⟩ := h
  rw [List.append_assoc] at h
  rcases List.append_eq_append_iff.1 h with ⟨rest, rfl, hrest⟩ | ⟨rest, rfl, hrest⟩
  · rcases List.append_eq_append_iff.1 hrest with ⟨more, rfl, _⟩ | ⟨more, rfl, hmore⟩
    · exact .inl ⟨before, more, List.append_assoc ..⟩
    · cases more with
      | nil => exact .inl ⟨before, [], by simp⟩
      | cons y more =>
        obtain ⟨rfl, _⟩ := List.cons.inj hmore
        exact absurd (List.mem_append_right _ List.mem_cons_self) hx
  · cases rest with
    | nil =>
      cases word with
      | nil => exact .inl List.nil_infix
      | cons y word =>
        obtain ⟨rfl, _⟩ := List.cons.inj hrest
        exact absurd List.mem_cons_self hx
    | cons y rest =>
      obtain ⟨_, rfl⟩ := List.cons.inj hrest
      exact .inr ⟨rest, after, List.append_assoc ..⟩

/-- A word without separators is in one of the pieces of a text. -/
theorem infix_splitOn {word s : List Char} {x : Char} (hx : x ∉ word) (h : word <:+: s) :
    ∃ piece ∈ s.splitOn x, word <:+: piece := by
  induction s using splitOn_induction (x := x) with
  | piece s hs => exact ⟨s, by rw [List.splitOn_eq_singleton hs]; exact List.mem_cons_self, h⟩
  | more front rest hfront ih =>
    rw [List.splitOn_append_cons_self, List.splitOn_eq_singleton hfront]
    rcases infix_of_append_cons hx h with h | h
    · exact ⟨front, List.mem_append_left _ List.mem_cons_self, h⟩
    · obtain ⟨piece, hpiece, hword⟩ := ih h
      exact ⟨piece, List.mem_append_right _ hpiece, hword⟩

/-- A word that stays in one piece wherever it is written: it has no line break, and its end is no mark of a continuation. -/
structure Unbroken (word : List Char) : Prop where
  noBreak : '\n' ∉ word
  last : ∃ x, word.getLast? = some x ∧ x ≠ '\\'

namespace Unbroken

variable {word : List Char}

theorem ne_nil (h : Unbroken word) : word ≠ [] := by
  rintro rfl
  obtain ⟨x, hx, _⟩ := h.last
  cases hx

/-- The mark of a continuation goes and leaves the word in place. -/
theorem infix_of_concat (h : Unbroken word) {front : List Char} (hword : word <:+: front ++ ['\\']) : word <:+: front := by
  rcases List.infix_concat_iff.1 hword with hsuffix | hword
  · obtain ⟨x, hx, hne⟩ := h.last
    obtain ⟨before, heq⟩ := hsuffix
    have hlast := congrArg List.getLast? heq
    rw [List.getLast?_append, hx, List.getLast?_concat] at hlast
    exact absurd (Option.some.inj hlast) hne
  · exact hword

end Unbroken

namespace Writer

variable {word : List Char} {w : Writer}

/-- A word in a line is in the text: it is neither replaced nor broken. -/
theorem infix_putLine (hword : Unbroken word) (hvalues : w.values = []) {s : List Char} (h : word <:+: s) :
    word <:+: (w.putLine s).text.toList := by
  unfold putLine
  rw [hvalues, substitute_nil]
  dsimp only
  split
  next hempty =>
    rw [Bool.and_eq_true, List.isEmpty_iff] at hempty
    rw [hempty.1] at h
    exact absurd (List.eq_nil_of_infix_nil h) hword.ne_nil
  next =>
    split
    next hlast =>
      obtain ⟨front, rfl⟩ := List.getLast?_eq_some_iff.1 hlast
      rw [List.dropLast_concat, String.toList_append, String.toList_ofList]
      exact (hword.infix_of_concat h).trans (List.suffix_append _ _).isInfix
    next =>
      rw [String.toList_append, String.toList_append, String.toList_ofList]
      exact h.trans (List.infix_append _ _ _)

/-- A word of a line stands in the text. -/
theorem infix_line (hword : Unbroken word) (hvalues : w.values = []) {text : String} (h : word <:+: text.toList) :
    word <:+: (w.line text).text.toList := by
  obtain ⟨piece, hpiece, h⟩ := infix_splitOn hword.noBreak h
  obtain ⟨before, after, hsplit⟩ := List.append_of_mem hpiece
  have hput := infix_putLine hword ((foldl_putLine_values w before).2.trans hvalues) h
  unfold line
  rw [hsplit, List.foldl_append, List.foldl_cons]
  conv => rhs; rw [eq_onto ((before.foldl putLine w).putLine piece), foldl_putLine_onto]
  rw [onto, String.toList_append]
  exact hput.trans (List.prefix_append _ _).isInfix

/-- A word of a line of the code stands in the text. -/
theorem infix_run (hword : Unbroken word) (hvalues : w.values = []) {c : Code} (hkeyless : ∀ s ∈ c, s.Keyless) {p : Phrase}
    (hp : .line p ∈ c) (h : word <:+: p.text.toList) : word <:+: (w.run c).text.toList := by
  obtain ⟨before, after, rfl⟩ := List.append_of_mem hp
  have hbefore := (run_values (fun s hs => hkeyless s (List.mem_append_left _ hs)) w).2.trans hvalues
  have hline := infix_line hword hbefore h
  have hrun : w.run (before ++ .line p :: after) = ((w.run before).line p.text).run after := run_append ..
  rw [hrun, run_text, String.toList_append]
  exact hline.trans (List.prefix_append _ _).isInfix

end Writer

/-! ## Code made of lines -/

/-- A step that writes at most one line, which is not to be continued. -/
def Step.Clean : Step → Prop
  | .line p => Step.Plain (.line p)
  | .require _ | .indent | .dedent => True
  | .set _ _ | .comment _ _ | .raw _ => False

namespace Code

/-- The lines that clean code is written as, from a level on. -/
def layout (unit : String) : Nat → Code → List String
  | _, [] => []
  | n, .line p :: c => (if p.text.isEmpty then "" else String.join (List.replicate n unit) ++ p.text) :: layout unit n c
  | n, .indent :: c => layout unit (n + 1) c
  | n, .dedent :: c => layout unit (n - 1) c
  | n, _ :: c => layout unit n c

/-- Texts are laid out as lines of their own, indented unless they are empty. -/
theorem layout_texts_append (unit : String) (n : Nat) (ss : List String) (c : Code) : layout unit n (texts ss ++ c) =
    ss.map (fun s => if s.isEmpty then "" else String.join (List.replicate n unit) ++ s) ++ layout unit n c := by
  induction ss with
  | nil => rfl
  | cons s ss ih =>
    have hcons : texts (s :: ss) ++ c = .line s :: (texts ss ++ c) := rfl
    rw [hcons, layout, ih]
    rfl

/-- The lines of clean code have no breaks in them. -/
theorem layout_noBreak {unit : String} (hunit : '\n' ∉ unit.toList) {c : Code} (h : ∀ s ∈ c, s.Clean) :
    ∀ n, ∀ l ∈ layout unit n c, '\n' ∉ l.toList := by
  induction c with
  | nil => exact fun n l hl => absurd hl List.not_mem_nil
  | cons s c ih =>
    obtain ⟨hs, hc⟩ := List.forall_mem_cons.1 h
    intro n
    cases s with
    | line p =>
      refine List.forall_mem_cons.2 ⟨?_, ih hc n⟩
      split
      · exact List.not_mem_nil
      · rw [String.toList_append, List.mem_append, not_or]
        refine ⟨?_, hs.1⟩
        simp [hunit]
    | require => exact ih hc n
    | indent => exact ih hc (n + 1)
    | dedent => exact ih hc (n - 1)
    | set | comment | raw => cases hs

end Code

/-- Lines with their ends. -/
def joined (lines : List String) : String := String.join (lines.map (· ++ "\n"))

/-- The lines of a text are found again. -/
theorem splitOn_joined {lines : List String} (h : ∀ l ∈ lines, '\n' ∉ l.toList) :
    (joined lines).toList.splitOn '\n' = lines.map String.toList ++ [[]] := by
  induction lines with
  | nil => exact List.splitOn_nil '\n'
  | cons l lines ih =>
    obtain ⟨hl, hlines⟩ := List.forall_mem_cons.1 h
    have hcons : (joined (l :: lines)).toList = l.toList ++ '\n' :: (joined lines).toList := by
      simp [joined]
    rw [hcons, List.splitOn_append_cons_self, List.splitOn_eq_singleton hl, ih hlines]
    rfl

namespace Writer

/-- Clean code is written line by line. -/
theorem run_clean {c : Code} (h : ∀ s ∈ c, s.Clean) : ∀ {w : Writer}, w.values = [] → w.pending = false →
    (w.run c).text = w.text ++ joined (c.layout w.unit w.level) := by
  induction c with
  | nil =>
    intro w _ _
    simp [run, joined, Code.layout]
  | cons s c ih =>
    intro w hvalues hpending
    obtain ⟨hs, hc⟩ := List.forall_mem_cons.1 h
    have hcons : w.run (s :: c) = (w.step s).run c := rfl
    rw [hcons]
    cases s with
    | line p =>
      have hline : w.step (.line p) = _ := line_clean hvalues hpending hs.1 hs.2
      have hrest := ih hc (w := w.step (.line p))
      rw [hline] at hrest ⊢
      refine (hrest hvalues hpending).trans ?_
      simp [Code.layout, joined, indentation, String.append_assoc]
    | require item => exact ih (w := w) hc hvalues hpending
    | indent => exact ih (w := w.indent) hc hvalues hpending
    | dedent => exact ih (w := w.dedent) hc hvalues hpending
    | set | comment | raw => cases hs

/-- The lines of clean code are read back from the text. -/
theorem splitOn_render {c : Code} (h : ∀ s ∈ c, s.Clean) {unit : String} (hunit : '\n' ∉ unit.toList) :
    (render unit c).toList.splitOn '\n' = (c.layout unit 0).map String.toList ++ [[]] := by
  have hrender : render unit c = joined (c.layout unit 0) := (run_clean h rfl rfl).trans String.empty_append
  rw [hrender, splitOn_joined (Code.layout_noBreak hunit h 0)]

end Writer

end FlatSchema
