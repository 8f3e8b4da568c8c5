import FlatSchema.Plan.Struct
import FlatSchema.Proofs.StructLayout

/-!
# Running the steps of a builder

A builder counts the bytes that it has written. Before a struct and before a scalar it writes as many bytes as bring the counter
to a multiple of what is asked for; loops take the last element first. `exec` gives the events of a run. Steps that are put
together from whole loops (`Emits`) run one part after the other, and parts that need no padding add up (`Fills`).
-/

namespace FlatSchema.Builder

/-! ## The builder -/

/-- The least number of bytes that brings a counter to a multiple of a number. -/
def gap (n a : Nat) : Nat := ((List.range a).find? fun k => (n + k) % a = 0).getD 0

/-- The gap is the least number of bytes up to the alignment. -/
theorem gap_spec {a : Nat} (ha : 0 < a) (n : Nat) : (n + gap n a) % a = 0 ∧ ∀ k, (n + k) % a = 0 → gap n a ≤ k := by
  unfold gap
  cases hfind : (List.range a).find? fun k => (n + k) % a = 0 with
  | none =>
    have hmem : Layout.paddingFor n a ∈ List.range a := List.mem_range.2 (Layout.paddingFor_lt ha n)
    have hno := List.find?_eq_none.1 hfind _ hmem
    simp only [decide_eq_true_eq] at hno
    exact absurd (Nat.mod_eq_zero_of_dvd (Layout.dvd_add_paddingFor ha n)) hno
  | some g =>
    rw [List.find?_range_eq_some] at hfind
    obtain ⟨hg, _, hleast⟩ := hfind
    refine ⟨of_decide_eq_true hg, fun k hk => Nat.le_of_not_lt fun hlt => ?_⟩
    have := hleast k hlt
    simp [hk] at this

/-- There is no gap where the alignment is kept already. -/
theorem gap_eq_zero {n a : Nat} (h : a ∣ n) : gap n a = 0 := by
  cases a with
  | zero => rfl
  | succ a => exact Nat.le_zero.1 ((gap_spec (Nat.succ_pos a) n).2 0 (Nat.mod_eq_zero_of_dvd h))

/-- A step that is taken once, with the parameter that it writes and the indices of the loops around it, outermost first. -/
structure Action where
  op : BuildOp
  param : Option StructParam
  indices : List Nat

/-- An action inside one more loop. -/
def Action.under (i : Nat) (a : Action) : Action := { a with indices := i :: a.indices }

/-- The turns of a loop, from the last index to the first. -/
def repeatDown : Nat → List Action → List Action
  | 0, _ => []
  | n + 1, body => body.map (Action.under n) ++ repeatDown n body

/-- What a loop does is what its body does for each index. -/
theorem mem_repeatDown {body : List Action} {a : Action} :
    ∀ {n : Nat}, a ∈ repeatDown n body ↔ ∃ i < n, ∃ b ∈ body, a = b.under i
  | 0 => by simp [repeatDown]
  | n + 1 => by
    rw [repeatDown, List.mem_append, mem_repeatDown, List.mem_map]
    constructor
    · rintro (⟨b, hb, rfl⟩ | ⟨i, hi, b, hb, rfl⟩)
      · exact ⟨n, Nat.lt_succ_self n, b, hb, rfl⟩
      · exact ⟨i, Nat.lt_succ_of_lt hi, b, hb, rfl⟩
    · rintro ⟨i, hi, b, hb, rfl⟩
      rcases Nat.lt_succ_iff_lt_or_eq.1 hi with hi | rfl
      · exact .inr ⟨i, hi, b, hb, rfl⟩
      · exact .inl ⟨b, hb, rfl⟩

/-- Steps with the parameters that they write: each writes the next one. -/
def label : List BuildOp → List StructParam → List (BuildOp × Option StructParam)
  | [], _ => []
  | .put name t inArray :: ops, p :: params => (.put name t inArray, some p) :: label ops params
  | op :: ops, params => (op, none) :: label ops params

/-- The actions of steps. The first argument holds the loops around the next step, innermost first: the number of turns, and the
actions before the loop. The second holds the actions inside the innermost of them. -/
def unroll : List (Nat × List Action) → List Action → List (BuildOp × Option StructParam) → List Action
  | _, taken, [] => taken
  | loops, taken, (op, param) :: rest =>
    match op, loops with
    | .beginArray n, _ => unroll ((n, taken) :: loops) [] rest
    | .endArray, (n, before) :: outer => unroll outer (before ++ repeatDown n taken) rest
    | _, _ => unroll loops (taken ++ [{ op, param, indices := [] }]) rest

/-- What happens when an action is taken: the bytes inserted in front, and the counter after it. -/
structure Event where
  action : Action
  inserted : Nat
  stop : Nat

/-- Takes an action at some counter. -/
def act (n : Nat) (a : Action) : Event :=
  match a.op with
  | .prep align size => { action := a, inserted := gap (n + size) align, stop := n + gap (n + size) align }
  | .pad count => { action := a, inserted := 0, stop := n + count }
  | .put _ t _ => { action := a, inserted := gap n t.base.size, stop := n + gap n t.base.size + t.base.size }
  | _ => { action := a, inserted := 0, stop := n }

/-- Takes actions one after the other. -/
def exec : Nat → List Action → List Event
  | _, [] => []
  | n, a :: rest => act n a :: exec (act n a).stop rest

/-- The counter after actions. -/
def finish : Nat → List Action → Nat
  | n, [] => n
  | n, a :: rest => finish (act n a).stop rest

/-- The actions of a plan: its steps write its parameters from the last to the first. -/
def actions (p : StructPlan) : List Action := unroll [] [] (label p.ops p.params.reverse)

/-! ## Steps made of whole loops -/

/-- Steps that write given parameters by given actions. Every loop among them is whole. -/
inductive Emits : List BuildOp → List StructParam → List Action → Prop
  | nil : Emits [] [] []
  | prep (align size : Nat) : Emits [.prep align size] [] [⟨.prep align size, none, []⟩]
  | pad (count : Nat) : Emits [.pad count] [] [⟨.pad count, none, []⟩]
  | put (p : StructParam) : Emits [.put p.name p.type p.span.isSome] [p] [⟨.put p.name p.type p.span.isSome, some p, []⟩]
  | append {ops ops' : List BuildOp} {params params' : List StructParam} {as as' : List Action}
    (h : Emits ops params as) (h' : Emits ops' params' as') : Emits (ops ++ ops') (params ++ params') (as ++ as')
  | loop {n : Nat} {body : List BuildOp} {params : List StructParam} {as : List Action} (h : Emits body params as) :
    Emits (.beginArray n :: body ++ [.endArray]) params (repeatDown n as)

/-- The parameters that steps name, in order. -/
def puts : List BuildOp → List (String × TypeDesc × Bool)
  | [] => []
  | .put name t inArray :: rest => (name, t, inArray) :: puts rest
  | _ :: rest => puts rest

/-- The values that are put, one part after the other. -/
theorem puts_append : ∀ ops ops' : List BuildOp, puts (ops ++ ops') = puts ops ++ puts ops'
  | [], _ => rfl
  | op :: ops, ops' => by
    cases op <;> simp [puts, puts_append ops ops']

namespace Emits

variable {ops : List BuildOp} {params : List StructParam} {as : List Action}

/-- The steps name the parameters that they write. -/
theorem puts_eq (h : Emits ops params as) : puts ops = params.map fun p => (p.name, p.type, p.span.isSome) := by
  induction h with
  | nil | prep | pad | put => rfl
  | append _ _ ih ih' => rw [puts_append, ih, ih', List.map_append]
  | @loop n body params as _ ih =>
    calc puts (.beginArray n :: body ++ [.endArray]) = puts (body ++ [.endArray]) := rfl
      _ = puts body := by rw [puts_append]; exact List.append_nil _
      _ = _ := ih

/-- What writes a parameter is a step that names it, and the parameter is one of those given. -/
theorem of_param (h : Emits ops params as) : ∀ a ∈ as, ∀ p, a.param = some p →
    p ∈ params ∧ a.op = .put p.name p.type p.span.isSome := by
  induction h with
  | nil => exact fun a ha => absurd ha List.not_mem_nil
  | prep | pad =>
    intro a ha p hp
    rw [List.mem_singleton.1 ha] at hp
    nomatch hp
  | put q =>
    intro a ha p hp
    rw [List.mem_singleton.1 ha] at hp ⊢
    cases hp
    exact ⟨List.mem_cons_self, rfl⟩
  | append _ _ ih ih' =>
    intro a ha p hp
    rcases List.mem_append.1 ha with ha | ha
    · exact ⟨List.mem_append_left _ (ih a ha p hp).1, (ih a ha p hp).2⟩
    · exact ⟨List.mem_append_right _ (ih' a ha p hp).1, (ih' a ha p hp).2⟩
  | loop _ ih =>
    intro a ha p hp
    obtain ⟨i, _, a', ha', rfl⟩ := mem_repeatDown.1 ha
    exact ih a' ha' p hp

/-- Steps that write values write parameters. -/
theorem param_of_put (h : Emits ops params as) : ∀ a ∈ as, ∀ name t inArray, a.op = .put name t inArray →
    ∃ p, a.param = some p := by
  induction h with
  | nil => exact fun a ha => absurd ha List.not_mem_nil
  | prep | pad =>
    intro a ha name t inArray hop
    rw [List.mem_singleton.1 ha] at hop
    nomatch hop
  | put p =>
    intro a ha _ _ _ _
    exact ⟨p, by rw [List.mem_singleton.1 ha]⟩
  | append _ _ ih ih' =>
    intro a ha
    rcases List.mem_append.1 ha with ha | ha
    · exact ih a ha
    · exact ih' a ha
  | loop _ ih =>
    intro a ha
    obtain ⟨i, _, a', ha', rfl⟩ := mem_repeatDown.1 ha
    exact ih a' ha'

/-- Whole steps are unrolled in place, whatever comes after them and whatever loops are around them. -/
theorem unroll_label (h : Emits ops params as) :
    ∀ (loops : List (Nat × List Action)) (taken : List Action) (ops' : List BuildOp) (params' : List StructParam),
      unroll loops taken (label (ops ++ ops') (params ++ params')) = unroll loops (taken ++ as) (label ops' params') := by
  induction h with
  | nil => intro loops taken ops' params'; simp
  | prep | pad | put => intros; rfl
  | append _ _ ih ih' =>
    intro loops taken ops' params'
    rw [List.append_assoc, List.append_assoc, ih, ih', List.append_assoc]
  | @loop n body params as _ ih =>
    intro loops taken ops' params'
    have hbody : (BuildOp.beginArray n :: body ++ [.endArray]) ++ ops' = .beginArray n :: (body ++ (.endArray :: ops')) := by
      simp
    rw [hbody]
    calc unroll loops taken (label (.beginArray n :: (body ++ .endArray :: ops')) (params ++ params'))
        = unroll ((n, taken) :: loops) [] (label (body ++ .endArray :: ops') (params ++ params')) := rfl
      _ = unroll ((n, taken) :: loops) ([] ++ as) (label (.endArray :: ops') params') := ih _ _ _ _
      _ = unroll loops (taken ++ repeatDown n as) (label ops' params') := rfl

end Emits

/-! ## Runs without padding -/

/-- Actions are carried out one part after the other. -/
theorem exec_append : ∀ (n : Nat) (as as' : List Action), exec n (as ++ as') = exec n as ++ exec (finish n as) as'
  | _, [], _ => rfl
  | n, a :: as, as' => by
    rw [List.cons_append, exec, exec, finish, exec_append, List.cons_append]

/-- The room that is taken by actions adds up. -/
theorem finish_append : ∀ (n : Nat) (as as' : List Action), finish n (as ++ as') = finish (finish n as) as'
  | _, [], _ => rfl
  | n, a :: as, as' => by
    rw [List.cons_append, finish, finish, finish_append]

/-- Events are actions taken, and every action is taken. -/
theorem exec_map_action : ∀ (n : Nat) (as : List Action), (exec n as).map Event.action = as
  | _, [] => rfl
  | n, a :: as => by
    rw [exec, List.map_cons, exec_map_action]
    cases a with
    | mk op param indices => cases op <;> rfl

/-- An event inside one more loop. -/
def Event.under (i : Nat) (e : Event) : Event := { e with action := e.action.under i }

/-- An action inside a loop does what it does outside, with an index in front. -/
theorem act_under (n i : Nat) (a : Action) : act n (a.under i) = (act n a).under i := by
  cases a with
  | mk op param indices => cases op <;> rfl

/-- Loops around actions do not change what they do. -/
theorem exec_under (i : Nat) : ∀ (n : Nat) (as : List Action),
    exec n (as.map (Action.under i)) = (exec n as).map (Event.under i) ∧ finish n (as.map (Action.under i)) = finish n as
  | _, [] => ⟨rfl, rfl⟩
  | n, a :: as => by
    obtain ⟨hexec, hfinish⟩ := exec_under i (act n a).stop as
    simp only [List.map_cons, exec, finish, act_under]
    exact ⟨by rw [← hexec]; rfl, hfinish⟩

/-- Actions take the counter from one number to another without inserting anything, and what happens has a property. -/
def Fills (as : List Action) (n m : Nat) (P : Event → Prop) : Prop :=
  finish n as = m ∧ ∀ e ∈ exec n as, e.inserted = 0 ∧ P e

namespace Fills

variable {as as' : List Action} {n k m : Nat} {P Q : Event → Prop}

theorem nil : Fills [] n n P := ⟨rfl, fun _ h => absurd h List.not_mem_nil⟩

/-- At the right counter a struct needs no padding. -/
theorem prep {align size : Nat} (h : align ∣ n + size) (hP : P ⟨⟨.prep align size, none, []⟩, 0, n⟩) :
    Fills [⟨.prep align size, none, []⟩] n n P := by
  have hact : act n ⟨.prep align size, none, []⟩ = ⟨⟨.prep align size, none, []⟩, 0, n⟩ := by
    simp only [act, gap_eq_zero h, Nat.add_zero]
  refine ⟨by rw [finish, hact]; rfl, ?_⟩
  intro e he
  rw [exec, hact, exec, List.mem_singleton] at he
  rw [he]
  exact ⟨rfl, hP⟩

/-- Padding fills the bytes that it counts. -/
theorem pad {count : Nat} (hP : P ⟨⟨.pad count, none, []⟩, 0, n + count⟩) : Fills [⟨.pad count, none, []⟩] n (n + count) P := by
  refine ⟨rfl, ?_⟩
  intro e he
  rw [exec, exec, List.mem_singleton] at he
  rw [he]
  exact ⟨rfl, hP⟩

/-- At the right counter a scalar needs no padding. -/
theorem put {name : String} {t : TypeDesc} {inArray : Bool} {p : StructParam} (hroom : n + t.base.size = m)
    (h : t.base.size ∣ m) (hP : P ⟨⟨.put name t inArray, some p, []⟩, 0, m⟩) :
    Fills [⟨.put name t inArray, some p, []⟩] n m P := by
  have hdvd : t.base.size ∣ n := by
    rw [← hroom] at h
    exact (Nat.dvd_add_left (Nat.dvd_refl _)).1 h
  have hact : act n ⟨.put name t inArray, some p, []⟩ = ⟨⟨.put name t inArray, some p, []⟩, 0, m⟩ := by
    simp only [act, gap_eq_zero hdvd, Nat.add_zero, hroom]
  refine ⟨by rw [finish, hact]; rfl, ?_⟩
  intro e he
  rw [exec, hact, exec, List.mem_singleton] at he
  rw [he]
  exact ⟨rfl, hP⟩

/-- What fills up to a place and goes on from there. -/
theorem append (h : Fills as n k P) (h' : Fills as' k m P) : Fills (as ++ as') n m P := by
  refine ⟨by rw [finish_append, h.1, h'.1], ?_⟩
  intro e he
  rw [exec_append, h.1] at he
  rcases List.mem_append.1 he with he | he
  · exact h.2 e he
  · exact h'.2 e he

theorem imp (h : Fills as n m P) (hPQ : ∀ e, P e → Q e) : Fills as n m Q :=
  ⟨h.1, fun e he => ⟨(h.2 e he).1, hPQ e (h.2 e he).2⟩⟩

/-- A loop whose turns fill places of the same size fills them together: the turn with index `i` ends `i` places below the
end. -/
theorem loop {turns size top : Nat} {P : Nat → Event → Prop}
    (h : ∀ i < turns, ∀ n m, n + size = m → m + i * size = top → Fills as n m (P i)) :
    ∀ {n : Nat}, n + turns * size = top →
      Fills (repeatDown turns as) n top fun e => ∃ i < turns, ∃ e', P i e' ∧ e = e'.under i := by
  induction turns with
  | zero =>
    intro n hn
    rw [Nat.zero_mul, Nat.add_zero] at hn
    exact hn ▸ nil
  | succ turns ih =>
    intro n hn
    rw [Nat.succ_mul] at hn
    rw [repeatDown]
    have hturn := h turns (Nat.lt_succ_self turns) n (n + size) rfl (by omega)
    refine Fills.append (k := n + size) ⟨(exec_under turns n as).2.trans hturn.1, ?_⟩ ?_
    · intro e he
      rw [(exec_under turns n as).1] at he
      obtain ⟨e', he', rfl⟩ := List.mem_map.1 he
      exact ⟨(hturn.2 e' he').1, turns, Nat.lt_succ_self turns, e', (hturn.2 e' he').2, rfl⟩
    · refine (ih (fun i hi => h i (Nat.lt_succ_of_lt hi)) (by omega)).imp ?_
      rintro e ⟨i, hi, e', hP, rfl⟩
      exact ⟨i, Nat.lt_succ_of_lt hi, e', hP, rfl⟩

end Fills

end FlatSchema.Builder
