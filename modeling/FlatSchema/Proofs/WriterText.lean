import FlatSchema.Code.Step
import FlatSchema.Proofs.Substitution

/-!
# What a writer writes

Code that is made of lines and of raw text, at the outermost level and without values to put in, is written as these texts one after
the other (`Writer.render_plain`).
-/

namespace FlatSchema

/-- A text is one piece, or a piece and more text behind a separator. -/
theorem splitOn_induction {x : Char} {P : List Char → Prop} (piece : ∀ s, x ∉ s → P s)
    (more : ∀ front rest, x ∉ front → P rest → P (front ++ x :: rest)) (s : List Char) : P s := by
  induction hlen : s.length using Nat.strongRecOn generalizing s with
  | _ n ih =>
    by_cases hmem : x ∈ s
    · obtain ⟨front, rest, rfl, hfront⟩ := List.eq_append_cons_of_mem hmem
      exact more front rest hfront (ih rest.length (by simp at hlen; omega) rest rfl)
    · exact piece s hmem

/-! ## Plain code -/

/-- A step that writes a text as it is: raw text, or one line that is not continued. -/
def Step.Plain : Step → Prop
  | .line p => '\n' ∉ p.text.toList ∧ p.text.toList.getLast? ≠ some '\\'
  | .raw _ => True
  | _ => False

instance : DecidablePred Step.Plain
  | .line p => inferInstanceAs (Decidable ('\n' ∉ p.text.toList ∧ p.text.toList.getLast? ≠ some '\\'))
  | .raw _ => .isTrue trivial
  | .set _ _ | .comment _ _ | .require _ | .indent | .dedent => .isFalse id

/-- The text of a plain step. -/
def Step.text : Step → String
  | .line p => p.text ++ "\n"
  | .raw s => s
  | _ => ""

/-- The text of plain code. -/
def Code.text (c : Code) : String := String.join (c.map Step.text)

namespace Writer

/-- One line that is not continued is written behind the indentation, unless it is empty. -/
theorem line_clean {w : Writer} (hvalues : w.values = []) (hpending : w.pending = false) {s : String} (hbreak : '\n' ∉ s.toList)
    (hlast : s.toList.getLast? ≠ some '\\') :
    w.line s = { w with text := w.text ++ ((if s.isEmpty then "" else w.indentation ++ s) ++ "\n") } := by
  unfold line
  rw [List.splitOn_eq_singleton hbreak, List.foldl_cons, List.foldl_nil, putLine]
  dsimp only
  rw [hvalues, substitute_nil, hpending]
  by_cases hempty : s = ""
  · subst hempty
    simp
  · simp [hempty, hlast, String.append_assoc]

theorem line_plain {w : Writer} (hvalues : w.values = []) (hlevel : w.level = 0) (hpending : w.pending = false) {s : String}
    (hbreak : '\n' ∉ s.toList) (hlast : s.toList.getLast? ≠ some '\\') : w.line s = { w with text := w.text ++ (s ++ "\n") } := by
  have hindent : w.indentation = "" := by
    rw [indentation, hlevel]
    rfl
  rw [line_clean hvalues hpending hbreak hlast, hindent, String.empty_append]
  by_cases hempty : s = "" <;> simp [hempty]

/-- A plain step appends its text and changes nothing else. -/
theorem step_plain {w : Writer} (hvalues : w.values = []) (hlevel : w.level = 0) (hpending : w.pending = false) {step : Step}
    (h : step.Plain) : w.step step = { w with text := w.text ++ step.text } := by
  cases step with
  | line p => exact line_plain hvalues hlevel hpending h.1 h.2
  | raw s =>
    show w.raw s = _
    rw [raw, ← hpending]
    rfl
  | set | comment | require | indent | dedent => cases h

theorem run_plain {c : Code} (h : ∀ step ∈ c, step.Plain) : ∀ {w : Writer}, w.values = [] → w.level = 0 → w.pending = false →
    (w.run c).text = w.text ++ c.text := by
  induction c with
  | nil =>
    intro w _ _ _
    simp [run, Code.text]
  | cons step c ih =>
    intro w hvalues hlevel hpending
    have hstep := step_plain hvalues hlevel hpending (h step List.mem_cons_self)
    have hrest := ih (fun x hx => h x (List.mem_cons_of_mem step hx)) (w := w.step step)
    rw [hstep] at hrest
    rw [run, List.foldl_cons, hstep]
    refine (hrest hvalues hlevel hpending).trans ?_
    simp [Code.text, String.append_assoc]

/-- Plain code is written as it is. -/
theorem render_plain {c : Code} (h : ∀ step ∈ c, step.Plain) (unit : String) : render unit c = c.text := by
  have hrun := run_plain h (w := { unit }) rfl rfl rfl
  rw [render, hrun]
  exact String.empty_append

end Writer

theorem Code.text_append (a b : Code) : Code.text (a ++ b) = Code.text a ++ Code.text b := by
  simp [Code.text]

end FlatSchema
