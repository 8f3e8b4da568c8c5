import FlatSchema.Output.Target
import FlatSchema.Plan.Loops
import FlatSchema.Proofs.Failure
import FlatSchema.Proofs.WriterText

/-!
# The shape of code

Generators put code together from single steps, one piece after the other and one piece inside another. Code that is put together so
is balanced: it takes back every indentation that it makes and no other (`Code.Balanced`). That it is balanced is found by instance
search, which follows the way in which a generator puts it together. A writer that runs balanced code comes back to the level at which
it started and never goes back from the outermost one (`Writer.level_run`, `Writer.level_pos_of_dedent`).
-/

namespace FlatSchema

/-! ## Balanced code -/

/-- Whether a step changes the level. -/
def Step.shifts : Step → Bool
  | .indent | .dedent => true
  | _ => false

/-- A step is of the kind that some code keeps to. -/
class Step.Meets (Q : Step → Prop) (s : Step) : Prop where
  meets : Q s

/-- Steps of any kind. -/
def Step.Any : Step → Prop := fun _ => True

instance Step.meets_any (s : Step) : s.Meets Step.Any := ⟨trivial⟩

/-- Steps that set no value of a key. -/
def Step.Keyless : Step → Prop
  | .set _ _ => False
  | _ => True

instance Step.keyless_line (p : Phrase) : Step.Meets Step.Keyless (.line p) := ⟨trivial⟩

instance Step.keyless_comment (mark : String) (docs : List String) : Step.Meets Step.Keyless (.comment mark docs) := ⟨trivial⟩

instance Step.keyless_raw (text : String) : Step.Meets Step.Keyless (.raw text) := ⟨trivial⟩

/-- A kind of step to which lines still belong with blanks in front. -/
class Step.Insets (Q : Step → Prop) : Prop where
  inset : ∀ (blanks : String) (p : Phrase), Q (.line p) → Q (.line (blanks ++ p))

instance Step.insets_any : Step.Insets Step.Any := ⟨fun _ _ _ => trivial⟩

/-- Code whose steps are of one kind, apart from indentations, each of which is taken back. -/
class inductive Code.Balanced (Q : Step → Prop) : Code → Prop
  | nil : Balanced Q []
  | step {s : Step} (hs : s.shifts = false) (h : Q s) : Balanced Q [s]
  | append {a b : Code} (ha : Balanced Q a) (hb : Balanced Q b) : Balanced Q (a ++ b)
  | indented {c : Code} (h : Balanced Q c) : Balanced Q (Code.indented c)

/-- Balanced code of steps of any kind. -/
abbrev Code.Even : Code → Prop := Code.Balanced Step.Any

namespace Code

variable {Q : Step → Prop} {a b c : Code} {head p : Phrase}

instance balanced_nil : Balanced Q [] := .nil

instance balanced_append [ha : Balanced Q a] [hb : Balanced Q b] : Balanced Q (a ++ b) := .append ha hb

instance balanced_line [h : Step.Meets Q (.line p)] : Balanced Q (line p) := .step rfl h.meets

instance balanced_blank [h : Step.Meets Q (.line "")] : Balanced Q blank := .step rfl h.meets

instance balanced_comment {mark : String} {docs : List String} [h : Step.Meets Q (.comment mark docs)] :
    Balanced Q (comment mark docs) := .step rfl h.meets

instance balanced_require {item : String} [h : Step.Meets Q (.require item)] : Balanced Q (require item) := .step rfl h.meets

instance balanced_set {key value : String} [h : Step.Meets Q (.set key value)] : Balanced Q [.set key value] :=
  .step rfl h.meets

instance balanced_raw {text : String} [h : Step.Meets Q (.raw text)] : Balanced Q [.raw text] := .step rfl h.meets

instance balanced_indented [h : Balanced Q c] : Balanced Q (indented c) := .indented h

instance balanced_nested [Step.Meets Q (.line head)] [Balanced Q c] : Balanced Q (nested head c) := by
  unfold nested
  infer_instance

instance balanced_block {stop : String} [Step.Meets Q (.line head)] [Step.Meets Q (.line stop)] [Balanced Q c] :
    Balanced Q (block head c stop) := by
  unfold block
  infer_instance

instance balanced_braced [Step.Meets Q (.line (head ++ " \x7b"))] [Step.Meets Q (.line "\x7d")] [Balanced Q c] :
    Balanced Q (braced head c) := by
  unfold braced
  infer_instance

instance balanced_when {condition : Bool} [Balanced Q c] : Balanced Q (when condition c) := by
  unfold when
  split <;> infer_instance

instance balanced_ite {p : Prop} [Decidable p] [Balanced Q a] [Balanced Q b] : Balanced Q (if p then a else b) := by
  split <;> infer_instance

theorem mem_braced {s : Step} (h : s ∈ c) : s ∈ braced head c := by
  simp [braced, block, nested, indented, h]

theorem inset_append (blanks : String) (a b : Code) : inset blanks (a ++ b) = inset blanks a ++ inset blanks b := List.map_append

/-- Blanks in front of lines do not change the shape of code. -/
instance balanced_inset {blanks : String} [hQ : Step.Insets Q] [h : Balanced Q c] : Balanced Q (inset blanks c) := by
  induction h with
  | nil => exact .nil
  | @step s hs h =>
    cases s with
    | line p => exact .step rfl (hQ.inset blanks p h)
    | set | comment | raw | require => exact .step rfl h
    | indent | dedent => cases hs
  | append _ _ iha ihb =>
    rw [inset_append]
    exact .append iha ihb
  | @indented c _ ih =>
    have hinset : inset blanks (indented c) = indented (inset blanks c) := by
      simp [inset, indented]
    rw [hinset]
    exact .indented ih

/-- What is known of the steps of balanced code may be weakened. -/
theorem Balanced.imp {Q' : Step → Prop} (hQ : ∀ s, Q s → Q' s) (h : Balanced Q c) : Balanced Q' c := by
  induction h with
  | nil => exact .nil
  | step hs h => exact .step hs (hQ _ h)
  | append _ _ iha ihb => exact .append iha ihb
  | indented _ ih => exact .indented ih

/-- The kind of steps, if it has the indentations in it. -/
theorem Balanced.mem (h : Balanced Q c) (hindent : Q .indent) (hdedent : Q .dedent) : ∀ s ∈ c, Q s := by
  induction h with
  | nil => exact fun s hs => absurd hs List.not_mem_nil
  | step _ h =>
    intro s hs
    rw [List.mem_singleton.1 hs]
    exact h
  | append _ _ iha ihb => exact List.forall_mem_append.2 ⟨iha, ihb⟩
  | indented _ ih =>
    refine List.forall_mem_cons.2 ⟨hindent, List.forall_mem_append.2 ⟨ih, fun s hs => ?_⟩⟩
    rw [List.mem_singleton.1 hs]
    exact hdedent

/-- Pieces of balanced code one after the other are balanced. -/
theorem Balanced.flatten : ∀ {cs : List Code}, (∀ c ∈ cs, Balanced Q c) → Balanced Q cs.flatten
  | [], _ => .nil
  | c :: cs, h => by
    rw [List.flatten_cons]
    exact .append (h c List.mem_cons_self) (flatten fun x hx => h x (List.mem_cons_of_mem c hx))

theorem Balanced.flatMap {α : Type} {xs : List α} {f : α → Code} (h : ∀ x ∈ xs, Balanced Q (f x)) : Balanced Q (xs.flatMap f) := by
  rw [List.flatMap_def]
  refine .flatten fun c hc => ?_
  obtain ⟨x, hx, rfl⟩ := List.mem_map.1 hc
  exact h x hx

instance balanced_flatMap {α : Type} {xs : List α} {f : α → Code} [h : ∀ x, Balanced Q (f x)] : Balanced Q (xs.flatMap f) :=
  .flatMap fun x _ => h x

/-- Lines are balanced, whatever they say. -/
theorem Balanced.lines {ps : List Phrase} (h : ∀ p ∈ ps, Q (.line p)) : Balanced Q (lines ps) := by
  have hlines : Code.lines ps = ps.flatMap line := List.map_eq_flatMap
  rw [hlines]
  exact .flatMap fun p hp => .step rfl (h p hp)

instance balanced_lines {ps : List Phrase} [h : ∀ p, Step.Meets Q (.line p)] : Balanced Q (lines ps) := .lines fun p _ => (h p).meets

instance balanced_texts {ss : List String} [h : ∀ s : String, Step.Meets Q (.line s)] : Balanced Q (texts ss) := by
  have htexts : texts ss = lines (ss.map fun (s : String) => (s : Phrase)) := by simp [texts, lines]
  rw [htexts]
  refine .lines fun p hp => ?_
  obtain ⟨s, _, rfl⟩ := List.mem_map.1 hp
  exact (h s).meets

end Code

/-! ## Values with code in them -/

/-- What it says about a value that the code in it is balanced and of one kind. -/
class HasCode (α : Type) where
  keeps : (Step → Prop) → α → Prop

instance (priority := low) HasCode.plain {α : Type} : HasCode α := ⟨fun _ _ => True⟩

instance HasCode.phrase : HasCode Phrase := ⟨fun Q p => Q (.line p)⟩

instance HasCode.list {α : Type} [HasCode α] : HasCode (List α) := ⟨fun Q xs => ∀ x ∈ xs, keeps Q x⟩

instance HasCode.pair {α β : Type} [HasCode α] [HasCode β] : HasCode (α × β) := ⟨fun Q p => keeps Q p.1 ∧ keeps Q p.2⟩

instance (priority := high) HasCode.code : HasCode Code := ⟨Code.Balanced⟩

/-- The code in a value is balanced and of one kind. -/
class Keeps {α : Type} [HasCode α] (Q : Step → Prop) (a : α) : Prop where
  keeps : HasCode.keeps Q a

/-- The code in whatever a computation gives is balanced and of one kind. -/
class Yields {α : Type} [HasCode α] (Q : Step → Prop) (x : Except GenError α) : Prop where
  of_ok : ∀ a, x = .ok a → HasCode.keeps Q a

section

open Code

variable {α β : Type} {Q : Step → Prop} {c : Code} {p : Phrase}

namespace Keeps

instance (priority := low) plain {a : α} : Keeps Q a := ⟨trivial⟩

instance phrase [h : Step.Meets Q (.line p)] : Keeps Q p := ⟨h.meets⟩

instance code [h : Balanced Q c] : Keeps Q c := ⟨h⟩

instance pair [HasCode α] [HasCode β] {a : α} {b : β} [ha : Keeps Q a] [hb : Keeps Q b] : Keeps Q (a, b) := ⟨ha.keeps, hb.keeps⟩

instance val [HasCode α] (a : {a : α // HasCode.keeps Q a}) : Keeps Q a.1 := ⟨a.2⟩

end Keeps

instance Code.balanced_val (c : {c : Code // HasCode.keeps Q c}) : Balanced Q c.1 := c.2

instance Code.balanced_fst [HasCode β] (p : {p : Code × β // HasCode.keeps Q p}) : Balanced Q p.1.1 := p.2.1

instance Code.balanced_flatten {cs : List Code} [h : Keeps Q cs] : Balanced Q cs.flatten := .flatten h.keeps

instance Code.balanced_flatMap_fst [HasCode β] {ps : List (Code × β)} [h : Keeps Q ps] : Balanced Q (ps.flatMap (·.1)) :=
  .flatMap fun p hp => (h.keeps p hp).1

namespace Yields

variable [HasCode α] [HasCode β] {x y : Except GenError α}

instance (priority := low) of_plain {α : Type} {x : Except GenError α} : Yields Q x := ⟨fun _ _ => trivial⟩

instance of_texts {x : Except GenError (List String)} : Yields Q x := ⟨fun _ _ _ _ => trivial⟩

instance of_phrase {x : Except GenError Phrase} : Yields Step.Any x := ⟨fun _ _ => trivial⟩

instance of_error {e : GenError} : Yields Q (.error e : Except GenError α) := by
  constructor
  intro a ha
  cases ha

instance of_val {a : α} [h : Keeps Q a] : Yields Q (.ok a) := by
  constructor
  intro b hb
  cases hb
  exact h.keeps

instance of_pure {a : α} [Keeps Q a] : Yields Q (pure a) := of_val

instance of_ite {p : Prop} [Decidable p] [Yields Q x] [Yields Q y] : Yields Q (if p then x else y) := by
  split <;> infer_instance

/-- What a computation yields may be used to yield more. -/
theorem bind {f : α → Except GenError β} (hx : Yields Q x) (hf : ∀ a, HasCode.keeps Q a → Yields Q (f a)) : Yields Q (x >>= f) := by
  constructor
  intro b hb
  obtain ⟨a, ha, hb⟩ := bind_eq_ok.1 hb
  exact (hf a (hx.of_ok a ha)).of_ok b hb

-- The property goes into the type of the value, since instances under a binder are not found.
instance of_bind {f : α → Except GenError β} [hx : Yields Q x] [hf : ∀ a : {a : α // HasCode.keeps Q a}, Yields Q (f a.1)] :
    Yields Q (x >>= f) := hx.bind fun a ha => hf ⟨a, ha⟩

/-- A list of computations yields what each of them does. -/
theorem mapM {α : Type} {xs : List α} {f : α → Except GenError β} (h : ∀ x ∈ xs, Yields Q (f x)) : Yields Q (xs.mapM f) := by
  constructor
  intro ys hys y hy
  obtain ⟨x, hx, hxy⟩ := mapM_mem hys y hy
  exact (h x hx).of_ok y hxy

instance of_mapM {α : Type} {xs : List α} {f : α → Except GenError β} [h : ∀ x, Yields Q (f x)] : Yields Q (xs.mapM f) :=
  mapM fun x _ => h x

end Yields

end

/-! ## The level of a writer -/

/-- The level after a step. There is none when a step would go back from the outermost level. -/
def Step.level? (n : Nat) : Step → Option Nat
  | .indent => some (n + 1)
  | .dedent => if n = 0 then none else some (n - 1)
  | _ => some n

/-- The level after some code. There is none when the code would go back from the outermost level. -/
def Code.level? (n : Nat) (c : Code) : Option Nat := c.foldlM Step.level? n

namespace Code

/-- Indentation is followed through one part after the other. -/
theorem level?_append (n : Nat) (a b : Code) : level? n (a ++ b) = (level? n a).bind (level? · b) := List.foldlM_append

/-- A piece of code may be followed by another one if it comes to a level. -/
theorem level?_append_of_eq {n m : Nat} {a : Code} (h : level? n a = some m) (b : Code) : level? n (a ++ b) = level? m b := by
  rw [level?_append, h, Option.bind_some]

/-- Balanced code comes back to its indentation, and never goes below it. -/
theorem Balanced.level? {Q : Step → Prop} {c : Code} (h : Balanced Q c) : ∀ n, level? n c = some n := by
  induction h with
  | nil =>
    intro n
    rfl
  | @step s hs _ =>
    intro n
    cases s with
    | indent | dedent => cases hs
    | set | line | comment | raw | require => rfl
  | append _ _ iha ihb =>
    intro n
    rw [level?_append_of_eq (iha n), ihb n]
  | @indented c _ ih =>
    intro n
    have hindent : Code.level? n [.indent] = some (n + 1) := rfl
    have hdedent : Code.level? (n + 1) [.dedent] = some n := rfl
    have hsplit : Code.indented c = [.indent] ++ (c ++ [.dedent]) := rfl
    rw [hsplit, level?_append_of_eq hindent, level?_append_of_eq (ih (n + 1)), hdedent]

end Code

namespace Writer

/-- A line does not change the indentation. -/
@[simp] theorem putLine_level (w : Writer) (s : List Char) : (w.putLine s).level = w.level := by
  unfold putLine
  dsimp only
  split
  · rfl
  · split <;> rfl

theorem line_level (w : Writer) (text : String) : (w.line text).level = w.level :=
  List.foldlRecOn _ putLine (motive := fun v => v.level = w.level) rfl fun v hv s _ => (putLine_level v s).trans hv

theorem comment_level (w : Writer) (mark : String) (docs : List String) : (w.comment mark docs).level = w.level :=
  List.foldlRecOn docs _ (motive := fun v => v.level = w.level) rfl fun v hv _ _ => (line_level v _).trans hv

/-- A writer is at the level that is counted. -/
theorem step_level {w : Writer} {s : Step} {m : Nat} (h : s.level? w.level = some m) : (w.step s).level = m := by
  cases s with
  | set | raw | require => exact Option.some.inj h
  | line p => exact (line_level w p.text).trans (Option.some.inj h)
  | comment mark docs => exact (comment_level w mark docs).trans (Option.some.inj h)
  | indent => exact Option.some.inj h
  | dedent =>
    rw [Step.level?] at h
    split at h
    · cases h
    · exact Option.some.inj h

/-- After code that comes to a level the writer is at that level. -/
theorem level_run {c : Code} : ∀ {w : Writer} {m : Nat}, c.level? w.level = some m → (w.run c).level = m := by
  induction c with
  | nil =>
    intro w m h
    exact Option.some.inj h
  | cons s c ih =>
    intro w m h
    obtain ⟨k, hk, hm⟩ := Option.bind_eq_some_iff.1 h
    refine ih (w := w.step s) ?_
    rw [step_level hk]
    exact hm

/-- Code is written one part after the other. -/
theorem run_append (w : Writer) (a b : Code) : w.run (a ++ b) = (w.run a).run b := List.foldl_append

/-- Code that comes to a level goes back from inner levels only. -/
theorem level_pos_of_dedent {c : Code} {w : Writer} {m : Nat} (h : c.level? w.level = some m) :
    ∀ before after, c = before ++ .dedent :: after → 0 < (w.run before).level := by
  intro before after hc
  rw [hc, Code.level?_append] at h
  obtain ⟨k, hk, hafter⟩ := Option.bind_eq_some_iff.1 h
  rw [level_run hk]
  obtain ⟨j, hj, _⟩ := Option.bind_eq_some_iff.1 hafter
  rw [Step.level?] at hj
  split at hj
  · cases hj
  · rename_i hne
    exact Nat.pos_of_ne_zero hne

/-! ## Lines that are to be continued -/

/-- A text that is not to be continued, whatever its keys stand for: it ends neither with the mark of a continuation nor with a key. -/
def Complete (s : List Char) : Prop := s.getLast? ≠ some '\\' ∧ ¬['\x7d', '\x7d'] <:+ s

instance (s : List Char) : Decidable (Complete s) := inferInstanceAs (Decidable (_ ∧ _))

/-- Whether a line goes on is seen at its end. -/
theorem Complete.of_suffix {s t : List Char} (h : Complete s) (ht : t <:+ s) : Complete t := by
  refine ⟨fun hlast => h.1 ?_, fun hkey => h.2 (hkey.trans ht)⟩
  obtain ⟨front, rfl⟩ := ht
  rw [List.getLast?_append, hlast, Option.some_or]

/-- A character that ends no key and marks no continuation. -/
def Inert (c : Char) : Prop := c ≠ '\\' ∧ c ≠ '\x7d'

instance (c : Char) : Decidable (Inert c) := inferInstanceAs (Decidable (_ ∧ _))

/-- A text whose last character is inert. -/
def Ended (s : String) : Prop := ∃ c, s.toList.getLast? = some c ∧ Inert c

/-- A text that ends with an ordinary character is complete. -/
theorem Ended.complete {s : String} (h : Ended s) : Complete s.toList := by
  obtain ⟨c, hlast, hc⟩ := h
  refine ⟨fun hmark => hc.1 (Option.some.inj (hlast.symm.trans hmark)), fun hkey => hc.2 ?_⟩
  obtain ⟨front, hs⟩ := hkey
  rw [← hs, List.getLast?_append] at hlast
  exact (Option.some.inj hlast).symm

/-- What stands in front of a text does not change how it ends. -/
theorem Ended.after (a : String) {b : String} (h : Ended b) : Ended (a ++ b) := by
  obtain ⟨c, hlast, hc⟩ := h
  refine ⟨c, ?_, hc⟩
  rw [String.toList_append, List.getLast?_append, hlast, Option.some_or]

/-- Inert characters may follow. -/
theorem Ended.append {a b : String} (ha : Ended a) (hb : ∀ c ∈ b.toList, Inert c) : Ended (a ++ b) := by
  cases hlast : b.toList.getLast? with
  | some c => exact .after a ⟨c, hlast, hb c (List.mem_of_getLast? hlast)⟩
  | none =>
    obtain ⟨c, ha, hc⟩ := ha
    refine ⟨c, ?_, hc⟩
    rw [String.toList_append, List.getLast?_append, hlast, Option.none_or, ha]

/-- Putting in values keeps the end of a text that does not end with a key. -/
theorem getLast?_substitute {values : List (String × String)} {s : List Char} (h : ¬['\x7d', '\x7d'] <:+ s) :
    (substitute values s).getLast? = s.getLast? := by
  fun_induction substitute values s with
  | case1 s hcut => rfl
  | case2 s before rest hcut hcut' => rfl
  | case3 s before rest hcut key after hcut' hlt ih =>
    have hs : s = (before ++ '\x7b' :: '\x7b' :: key) ++ ['\x7d', '\x7d'] ++ after := by
      rw [parts_eq_placeholder (firstPair_of_cutPair hcut) (firstPair_of_cutPair hcut')]
      simp [placeholder]
    have hafter : after <:+ s := ⟨_, hs.symm⟩
    have hlast := ih fun hkey => h (hkey.trans hafter)
    obtain ⟨c, hc⟩ : ∃ c, after.getLast? = some c := by
      cases hend : after.getLast? with
      | some c => exact ⟨c, rfl⟩
      | none =>
        rw [List.getLast?_eq_none_iff.1 hend, List.append_nil] at hs
        exact absurd ⟨_, hs.symm⟩ h
    rw [List.getLast?_append, hlast, hc, Option.some_or, hs, List.getLast?_append, hc, Option.some_or]

/-- A complete line leaves no line open. -/
theorem putLine_pending {s : List Char} (h : Complete s) (w : Writer) : (w.putLine s).pending = false := by
  unfold putLine
  dsimp only
  split
  next hempty =>
    rw [Bool.and_eq_true, Bool.not_eq_true'] at hempty
    exact hempty.2
  next =>
    rw [getLast?_substitute h.2, if_neg h.1]

/-- Of a text with line breaks, what is behind the last of them decides. -/
theorem line_pending {text : String} (h : Complete text.toList) (w : Writer) : (w.line text).pending = false := by
  unfold line
  generalize text.toList = s at h
  induction s using splitOn_induction (x := '\n') generalizing w with
  | piece s hs =>
    rw [List.splitOn_eq_singleton hs]
    exact putLine_pending h w
  | more front rest _ ih =>
    have hsuffix : rest <:+ front ++ '\n' :: rest := ⟨front ++ ['\n'], by rw [List.append_assoc, List.singleton_append]⟩
    rw [List.splitOn_append_cons_self, List.foldl_append]
    exact ih _ (h.of_suffix hsuffix)

end Writer

/-- Whatever a computation gives has a property. -/
def Gives {α : Type} (P : α → Prop) (x : Except GenError α) : Prop := ∀ a, x = .ok a → P a

namespace Gives

variable {α β : Type} {P : α → Prop} {R : β → Prop} {x y : Except GenError α}

/-- A result that has the property. -/
theorem ok {a : α} (h : P a) : Gives P (.ok a) := by
  intro b hb
  cases hb
  exact h

/-- What the result of a step is known to be may be used for the rest. -/
theorem bind {f : α → Except GenError β} (hx : Gives P x) (hf : ∀ a, P a → Gives R (f a)) : Gives R (x >>= f) := by
  intro b hb
  obtain ⟨a, ha, hb⟩ := bind_eq_ok.1 hb
  exact hf a (hx a ha) b hb

/-- What holds whatever the first of two computations gives. -/
theorem after {f : α → Except GenError β} (hf : ∀ a, Gives R (f a)) : Gives R (x >>= f) :=
  bind (P := fun _ => True) (fun _ _ => trivial) fun a _ => hf a

theorem ite {p : Prop} [Decidable p] (hx : Gives P x) (hy : Gives P y) : Gives P (if p then x else y) := by
  split <;> assumption

/-- The same for a choice between two computations that go on alike. -/
theorem ite_bind {p : Prop} [Decidable p] {f : α → Except GenError β} (hx : Gives P x) (hy : Gives P y)
    (hf : ∀ a, P a → Gives R (f a)) : Gives R (if p then x >>= f else y >>= f) := .ite (hx.bind hf) (hy.bind hf)

theorem ite_after {p : Prop} [Decidable p] {f : α → Except GenError β} (hf : ∀ a, Gives R (f a)) :
    Gives R (if p then x >>= f else y >>= f) := .ite (after hf) (after hf)

theorem imp {P' : α → Prop} (h : Gives P x) (hP : ∀ a, P a → P' a) : Gives P' x := fun a ha => hP a (h a ha)

end Gives

namespace Code

variable {a b c : Code}

/-- Code after which no line is to be continued. -/
def Settles (c : Code) : Prop := ∀ w : Writer, (w.run c).pending = false

/-- Code after which no line is to be continued unless one was before. -/
def Calm (c : Code) : Prop := ∀ w : Writer, w.pending = false → (w.run c).pending = false

/-- Code that ends with a complete line leaves no line open. -/
theorem Settles.calm (h : Settles c) : Calm c := fun w _ => h w

/-- What stands in front of code does not change how it ends. -/
theorem Settles.after (a : Code) (h : Settles b) : Settles (a ++ b) := by
  intro w
  rw [Writer.run_append]
  exact h (w.run a)

/-- Behind a complete line there may be code that leaves no line open. -/
theorem Settles.append_calm (ha : Settles a) (hb : Calm b) : Settles (a ++ b) := by
  intro w
  rw [Writer.run_append]
  exact hb _ (ha w)

theorem Settles.line {p : Phrase} (h : Writer.Complete p.text.toList) : Settles (line p) := Writer.line_pending h

theorem Settles.inset_line {blanks : String} {p : Phrase} (h : Writer.Ended p.text) : Settles (inset blanks (Code.line p)) :=
  .line (h.after blanks).complete

theorem Settles.blank : Settles blank := .line (by decide)

theorem Settles.raw (text : String) : Settles [.raw text] := fun _ => rfl

/-- Indentation does not change how code ends. -/
theorem Settles.indented (h : Settles c) : Settles (indented c) := by
  intro w
  have hrun : w.run (Code.indented c) = ((w.step .indent).run c).step .dedent := by
    simp [Code.indented, Writer.run]
  rw [hrun]
  exact h _

theorem Settles.nested (head : Phrase) (h : Settles c) : Settles (nested head c) := h.indented.after _

theorem Settles.block (head : Phrase) (c : Code) {stop : String} (h : Writer.Complete stop.toList) : Settles (block head c stop) :=
  (Settles.line h).after _

theorem Settles.braced (head : Phrase) (c : Code) : Settles (braced head c) := .block _ _ (by decide)

theorem Settles.ite {p : Prop} [Decidable p] (ha : Settles a) (hb : Settles b) : Settles (if p then a else b) := by
  split <;> assumption

theorem Calm.nil : Calm [] := fun _ h => h

/-- Parts that leave no line open, one after the other. -/
theorem Calm.append (ha : Calm a) (hb : Calm b) : Calm (a ++ b) := by
  intro w h
  rw [Writer.run_append]
  exact hb _ (ha w h)

theorem Calm.flatMap {α : Type} {f : α → Code} (h : ∀ x, Calm (f x)) : ∀ xs : List α, Calm (xs.flatMap f)
  | [] => .nil
  | x :: xs => by
    rw [List.flatMap_cons]
    exact .append (h x) (flatMap h xs)

theorem Calm.when {condition : Bool} (h : Calm c) : Calm (when condition c) := by
  unfold Code.when
  split
  · exact h
  · exact .nil

/-- Code that leaves a writer as it found it: no level deeper, and no line to be continued. -/
structure Whole (c : Code) : Prop where
  even : Even c
  settles : Settles c

/-- Balanced code in front of whole code makes whole code. -/
theorem Whole.after {c : Code} (h : Whole c) (a : Code) [ha : Even a] : Whole (a ++ c) := ⟨.append ha h.even, h.settles.after a⟩

/-- What a computation gives is whole if it is even and settles. -/
theorem Whole.gives {x : Except GenError Code} [heven : Yields Step.Any x] (hsettles : Gives Settles x) : Gives Whole x :=
  fun c hc => ⟨heven.of_ok c hc, hsettles c hc⟩

end Code

/-! ## Builders of structs -/

/-- Steps of a builder in which every loop that starts also ends. -/
inductive BuildOp.Nest : List BuildOp → Prop
  | nil : Nest []
  | prep (align size : Nat) : Nest [.prep align size]
  | pad (count : Nat) : Nest [.pad count]
  | put (param : String) (type : TypeDesc) (inArray : Bool) : Nest [.put param type inArray]
  | append {a b : List BuildOp} (ha : Nest a) (hb : Nest b) : Nest (a ++ b)
  | loop (length : Nat) {ops : List BuildOp} (h : Nest ops) : Nest (.beginArray length :: ops ++ [.endArray])

/-- Steps with whole loops, one after the other, have whole loops. -/
theorem BuildOp.Nest.flatMap {α : Type} {f : α → List BuildOp} : ∀ {xs : List α}, (∀ x ∈ xs, Nest (f x)) → Nest (xs.flatMap f)
  | [], _ => .nil
  | x :: xs, h => by
    rw [List.flatMap_cons]
    exact .append (h x List.mem_cons_self) (flatMap fun y hy => h y (List.mem_cons_of_mem x hy))

/-- The loops of a struct's plan lie inside one another. -/
theorem StructPlan.nest_opsOf (s : Schema) (depth : Nat) (d : StructDef) (lead : String) (inArray : Bool) :
    BuildOp.Nest (opsOf s depth d lead inArray) := by
  induction depth generalizing d lead inArray with
  | zero => exact .nil
  | succ depth ih =>
    rw [opsOf]
    refine .append (.prep _ _) (.flatMap fun f _ => .append ?_ ?_)
    · split
      · exact .nil
      · exact .pad _
    · split
      · split
        · exact ih _ _ _
        · exact .nil
      · split
        · refine .loop _ ?_
          split
          · exact ih _ _ _
          · exact .put _ _ _
        · exact .put _ _ _

/-- In the steps of a plan every loop that begins ends. -/
theorem StructPlan.nest_of (s : Schema) (d : StructDef) : BuildOp.Nest (StructPlan.of s d).ops := nest_opsOf s _ d "" false

namespace BuilderSpelling

open Code

/-- A spelling whose lines are of one kind. -/
class Keeps (Q : Step → Prop) (b : BuilderSpelling) : Prop where
  prep : ∀ align size, Q (.line (b.prep align size))
  pad : ∀ n, Q (.line (b.pad n))
  put : ∀ t value, Q (.line (b.put t value))
  loop : ∀ index n, Q (.line (b.loop index n))
  loopEnd : Balanced Q b.loopEnd

variable {b : BuilderSpelling} {ops : List BuildOp}

/-- Steps without an open loop are spelled on their own, whatever follows them. -/
theorem code_append (h : BuildOp.Nest ops) : ∀ depth rest, b.code depth (ops ++ rest) = b.code depth ops ++ b.code depth rest := by
  induction h with
  | nil | prep | pad | put =>
    intro depth rest
    rfl
  | append _ _ iha ihb =>
    intro depth rest
    rw [List.append_assoc, iha, iha, ihb, List.append_assoc]
  | loop length _ ih =>
    intro depth rest
    simp only [code, List.cons_append, List.append_assoc, List.nil_append, ih, Nat.add_sub_cancel, List.append_nil]

/-- A whole loop is written as a line, its body indented, and its end. -/
theorem code_loop (h : BuildOp.Nest ops) (depth length : Nat) :
    b.code depth (.beginArray length :: ops ++ [.endArray]) =
      line (b.loop (indexName depth) length) ++ indented (b.code (depth + 1) ops) ++ b.loopEnd := by
  simp only [code, List.cons_append, code_append h]
  simp [line, indented]

/-- Steps with whole loops are written as balanced code, in every language. -/
theorem balanced_code {Q : Step → Prop} [hb : Keeps Q b] (h : BuildOp.Nest ops) : ∀ depth, Balanced Q (b.code depth ops) := by
  induction h with
  | nil =>
    intro depth
    exact .nil
  | prep align size =>
    intro depth
    exact .step rfl (hb.prep align size)
  | pad count =>
    intro depth
    exact .step rfl (hb.pad count)
  | put param type inArray =>
    intro depth
    exact .step rfl (hb.put type _)
  | append ha _ iha ihb =>
    intro depth
    rw [code_append ha]
    exact .append (iha depth) (ihb depth)
  | loop length h ih =>
    intro depth
    rw [code_loop h]
    exact .append (.append (.step rfl (hb.loop _ length)) (.indented (ih (depth + 1)))) hb.loopEnd

instance balanced_plan {Q : Step → Prop} [Keeps Q b] {s : Schema} {d : StructDef} {depth : Nat} :
    Balanced Q (b.code depth (StructPlan.of s d).ops) := balanced_code (StructPlan.nest_of s d) depth

/-- The lines of any spelling are lines. -/
instance keeps_any [h : Balanced Step.Any b.loopEnd] : Keeps Step.Any b where
  prep _ _ := trivial
  pad _ := trivial
  put _ _ := trivial
  loop _ _ := trivial
  loopEnd := h

end BuilderSpelling

end FlatSchema
