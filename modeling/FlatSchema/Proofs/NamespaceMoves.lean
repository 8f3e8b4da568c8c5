import FlatSchema.Output.Transition

/-!
# Moves between namespaces on a stack

The components of the namespace that is open are a stack, innermost on top. A move closes components from the top and opens others
there. Whatever namespaces are visited one after the other, each component is on top when it is closed, the stack is the target
after every move, and the way back to the root leaves it empty (`Transition.visit_balanced`). No other way to pop and push that
leads from the source to the target is shorter, since a step brings the stack nearer to the target by one component at most
(`StackStep.length_le_of_runAll?`).
-/

namespace FlatSchema

/-! ## What two namespaces share -/

namespace Namespace

/-- What two namespaces have in common is no longer than either of them. -/
theorem commonLength_le : ∀ as bs : List String, commonLength as bs ≤ as.length ∧ commonLength as bs ≤ bs.length
  | [], _ => ⟨Nat.zero_le _, Nat.zero_le _⟩
  | _ :: _, [] => ⟨Nat.zero_le _, Nat.zero_le _⟩
  | a :: as, b :: bs => by
    rw [commonLength]
    split
    · have := commonLength_le as bs
      simp only [List.length_cons]
      omega
    · exact ⟨Nat.zero_le _, Nat.zero_le _⟩

/-- A namespace has all in common with itself. -/
theorem commonLength_self (as : List String) : commonLength as as = as.length := by
  induction as with
  | nil => rfl
  | cons a as ih => simp [commonLength, ih]

/-- The components that are counted are the same in both. -/
theorem take_commonLength (as bs : List String) : as.take (commonLength as bs) = bs.take (commonLength as bs) := by
  induction as generalizing bs with
  | nil => simp [commonLength]
  | cons a as ih =>
    cases bs with
    | nil => simp [commonLength]
    | cons b bs =>
      rw [commonLength]
      split
      next hab => simp [hab, ih bs]
      next => simp

/-- One more component inside adds one shared component at most, and takes none away. -/
theorem commonLength_concat (as bs : List String) (c : String) :
    commonLength as bs ≤ commonLength (as ++ [c]) bs ∧ commonLength (as ++ [c]) bs ≤ commonLength as bs + 1 := by
  induction as generalizing bs with
  | nil =>
    cases bs with
    | nil => simp [commonLength]
    | cons b bs =>
      have hle := (commonLength_le [c] (b :: bs)).1
      simp only [List.length_singleton] at hle
      simp only [commonLength, List.nil_append] at hle ⊢
      omega
  | cons a as ih =>
    cases bs with
    | nil => simp [commonLength]
    | cons b bs =>
      have := ih bs
      simp only [List.cons_append, commonLength]
      split <;> omega

end Namespace

/-! ## Steps on a stack -/

/-- A step on the stack of open components. -/
inductive StackStep
  | pop
  | push (component : String)
deriving DecidableEq, Repr

namespace StackStep

/-- The stack after a step, its top at the end. An empty stack cannot be popped. -/
def run? (stack : List String) : StackStep → Option (List String)
  | .pop => if stack.isEmpty then none else some stack.dropLast
  | .push c => some (stack ++ [c])

/-- The stack after all steps of a script. -/
def runAll? (script : List StackStep) (stack : List String) : Option (List String) := script.foldlM run? stack

theorem runAll?_cons (step : StackStep) (script : List StackStep) (stack : List String) :
    runAll? (step :: script) stack = (run? stack step).bind (runAll? script) := rfl

/-- What a step does: it takes the top away, or puts a component on top. -/
theorem run?_cases {step : StackStep} {stack next : List String} (h : run? stack step = some next) :
    (∃ c, stack = next ++ [c]) ∨ ∃ c, next = stack ++ [c] := by
  cases step with
  | pop =>
    simp only [run?, Option.ite_none_left_eq_some, Option.some.injEq, List.isEmpty_iff] at h
    obtain ⟨hne, rfl⟩ := h
    exact .inl ⟨stack.getLast hne, (List.dropLast_concat_getLast hne).symm⟩
  | push c =>
    simp only [run?, Option.some.injEq] at h
    exact .inr ⟨c, h.symm⟩

/-- A script from one stack to another has a step for every component that the two do not share. -/
theorem length_le_of_runAll? {script : List StackStep} {stack target : List String} (h : runAll? script stack = some target) :
    stack.length + target.length ≤ script.length + 2 * Namespace.commonLength stack target := by
  induction script generalizing stack with
  | nil =>
    cases h
    rw [Namespace.commonLength_self]
    simp only [List.length_nil]
    omega
  | cons step script ih =>
    rw [runAll?_cons, Option.bind_eq_some_iff] at h
    obtain ⟨next, hstep, hrest⟩ := h
    have hlater := ih hrest
    rcases run?_cases hstep with ⟨c, rfl⟩ | ⟨c, rfl⟩
    · have := Namespace.commonLength_concat next target c
      simp only [List.length_append, List.length_cons, List.length_nil]
      omega
    · have := Namespace.commonLength_concat stack target c
      simp only [List.length_append, List.length_cons, List.length_nil] at hlater ⊢
      omega

end StackStep

/-! ## Moves -/

namespace Transition

/-- Pops a component that has to be the top of the stack. -/
def close? (stack : List String) (component : String) : Option (List String) :=
  if stack.getLast? = some component then some stack.dropLast else none

/-- The stack after a move: each component to close is popped, and then each component to open is pushed. -/
def replay? (t : Transition) (stack : List String) : Option (List String) := do
  let shared ← t.closing.foldlM close? stack
  return t.opening.foldl (fun stack c => stack ++ [c]) shared

/-- The stacks after each of some moves. -/
def replayAll? : List Transition → List String → Option (List (List String))
  | [], _ => some []
  | t :: rest, stack => do
    let next ← t.replay? stack
    return next :: (← replayAll? rest next)

/-- A move as a script: a pop for every component to close, and a push for every component to open. -/
def script (t : Transition) : List StackStep := t.closing.map (fun _ => .pop) ++ t.opening.map .push

/-- The components that stay open. -/
def shared (t : Transition) : List String := t.source.components.take t.common

/-- The source is what is shared and what is closed. -/
theorem source_eq (t : Transition) : t.source.components = t.shared ++ t.closing.reverse := by
  rw [shared, closing, List.reverse_reverse, List.take_append_drop]

/-- The target is what is shared and what is opened. -/
theorem target_eq (t : Transition) : t.target.components = t.shared ++ t.opening := by
  have hshared : t.shared = t.target.components.take t.common := Namespace.take_commonLength _ _
  rw [hshared, opening, List.take_append_drop]

theorem close?_concat (stack : List String) (c : String) : close? (stack ++ [c]) c = some stack := by
  simp [close?]

/-- Components are popped in the order opposite to that of the stack. -/
theorem foldlM_close? (shared : List String) : ∀ closing : List String,
    closing.foldlM close? (shared ++ closing.reverse) = some shared
  | [] => by simp
  | c :: closing => by
    rw [List.reverse_cons, ← List.append_assoc, List.foldlM_cons, close?_concat]
    exact foldlM_close? shared closing

/-- Components are opened one inside the other. -/
theorem foldl_concat (stack : List String) : ∀ opening : List String,
    opening.foldl (fun stack c => stack ++ [c]) stack = stack ++ opening
  | [] => by simp
  | c :: opening => by
    rw [List.foldl_cons, foldl_concat (stack ++ [c]) opening, List.append_assoc, List.singleton_append]

/-- A move leads from the stack of its source to the stack of its target, and pops what it names. -/
theorem replay?_source (t : Transition) : t.replay? t.source.components = some t.target.components := by
  rw [replay?, source_eq, foldlM_close?, target_eq]
  exact congrArg some (foldl_concat _ _)

/-- Moves lead through the stacks of the namespaces that are visited. -/
theorem replayAll?_visit (targets : List Namespace) (source : Namespace) :
    replayAll? (visit source targets) source.components = some (targets.map (·.components)) := by
  induction targets generalizing source with
  | nil => rfl
  | cons target rest ih =>
    simp only [visit, replayAll?, replay?_source ⟨source, target⟩, Option.bind_eq_bind, Option.bind_some, ih target]
    rfl

/-- A move is idle if it leads nowhere else. -/
theorem isNoop_iff (t : Transition) : t.isNoop = true ↔ t.source = t.target := by
  simp only [isNoop, Bool.and_eq_true, beq_iff_eq]
  constructor
  · rintro ⟨hsource, htarget⟩
    have htake : t.source.components.take t.common = t.target.components.take t.common := Namespace.take_commonLength _ _
    have hcomponents : t.source.components = t.target.components := by
      rw [List.take_of_length_le (Nat.le_of_eq hsource.symm), List.take_of_length_le (Nat.le_of_eq htarget.symm)] at htake
      exact htake
    exact congrArg Namespace.mk hcomponents
  · intro h
    have hself : t.common = t.source.components.length := by
      rw [common, Namespace.common, ← h, Namespace.commonLength_self]
    exact ⟨hself, h ▸ hself⟩

/-- A move has a step for every component that its ends do not share. -/
theorem length_script (t : Transition) :
    t.script.length + 2 * t.common = t.source.components.length + t.target.components.length := by
  obtain ⟨hsource, htarget⟩ : t.common ≤ t.source.components.length ∧ t.common ≤ t.target.components.length :=
    Namespace.commonLength_le _ _
  simp only [script, closing, opening, List.length_append, List.length_map, List.length_reverse, List.length_drop]
  omega

/-- Popping each component that is closed leaves what is shared. -/
theorem runAll?_pops (shared : List String) : ∀ closing : List String,
    StackStep.runAll? (closing.map fun _ => .pop) (shared ++ closing.reverse) = some shared
  | [] => by simp [StackStep.runAll?]
  | c :: closing => by
    rw [List.map_cons, StackStep.runAll?_cons, List.reverse_cons, ← List.append_assoc]
    simpa [StackStep.run?] using runAll?_pops shared closing

/-- Pushing each component that is opened puts it on top. -/
theorem runAll?_pushes (stack : List String) : ∀ opening : List String,
    StackStep.runAll? (opening.map .push) stack = some (stack ++ opening)
  | [] => by simp [StackStep.runAll?]
  | c :: opening => by
    rw [List.map_cons, StackStep.runAll?_cons]
    simpa [StackStep.run?] using runAll?_pushes (stack ++ [c]) opening

/-- The script of a move leads from its source to its target. -/
theorem runAll?_script (t : Transition) :
    StackStep.runAll? t.script t.source.components = some t.target.components := by
  rw [StackStep.runAll?, script, List.foldlM_append, source_eq, target_eq]
  have hpops := runAll?_pops t.shared t.closing
  have hpushes := runAll?_pushes t.shared t.opening
  simp only [StackStep.runAll?] at hpops hpushes
  rw [hpops]
  exact hpushes

/-- Namespaces visited one after the other from the root, and the root after them: on a stack that starts empty, every move pops
exactly the components that it closes and leaves the components of its target, so that the stack is empty at the end. A move has
nothing to do exactly if its source is its target, and no script from the source to the target is shorter than a move. -/
theorem visit_balanced (targets : List Namespace) :
    replayAll? (visit .root (targets ++ [.root])) [] = some (targets.map (·.components) ++ [[]]) ∧
    ∀ t : Transition, (t.isNoop = true ↔ t.source = t.target) ∧
      StackStep.runAll? t.script t.source.components = some t.target.components ∧
      ∀ script, StackStep.runAll? script t.source.components = some t.target.components → t.script.length ≤ script.length := by
  constructor
  · have hvisit := replayAll?_visit (targets ++ [.root]) .root
    rwa [List.map_append] at hvisit
  · intro t
    refine ⟨t.isNoop_iff, t.runAll?_script, fun script hscript => ?_⟩
    have hlength := t.length_script
    have hle := StackStep.length_le_of_runAll? hscript
    have hcommon : t.common = Namespace.commonLength t.source.components t.target.components := rfl
    omega

/-- Namespaces inside, beside and around each other, some of them twice. -/
theorem interleaved_balanced :
    replayAll? (visit .root (["A.B", "A", "C.D.E", "A.B", "", "C", "C.D"].map Namespace.ofDotted ++ [.root])) [] =
      some [["A", "B"], ["A"], ["C", "D", "E"], ["A", "B"], [], ["C"], ["C", "D"], []] :=
  (visit_balanced _).1.trans (by decide +kernel)

end Transition

end FlatSchema
