/-!
# Computations that may fail

What is known when a computation in `Except` has given a result: each of its steps has given one. A traversal that succeeds has
succeeded on every element, and an invariant of the steps of a loop holds at its end.
-/

namespace FlatSchema

universe u v w

variable {ε : Type u} {α β : Type v}

/-- A computation that leaves a result has succeeded. -/
theorem eq_ok_of_toOption {ε α : Type} {x : Except ε α} {a : α} (h : x.toOption = some a) : x = .ok a := by
  cases x with
  | error e => cases h
  | ok b =>
    cases h
    rfl

/-- A sequence of two computations gives a result exactly when the first does and the second does after it. -/
theorem bind_eq_ok {x : Except ε α} {f : α → Except ε β} {b : β} :
    (x >>= f) = .ok b ↔ ∃ a, x = .ok a ∧ f a = .ok b := by
  cases x with
  | error e =>
    constructor
    · intro h
      nomatch h
    · rintro ⟨a, h, _⟩
      nomatch h
  | ok a =>
    constructor
    · intro h
      exact ⟨a, rfl, h⟩
    · rintro ⟨a', h, hf⟩
      cases h
      exact hf

/-- A sequence of two computations fails exactly when the first does, or the second does after it. -/
theorem bind_eq_error {x : Except ε α} {f : α → Except ε β} {e : ε} :
    (x >>= f) = .error e ↔ x = .error e ∨ ∃ a, x = .ok a ∧ f a = .error e := by
  cases x with
  | error e' =>
    constructor
    · intro h
      cases h
      exact .inl rfl
    · rintro (h | ⟨a, h, _⟩)
      · cases h
        rfl
      · cases h
  | ok a =>
    constructor
    · intro h
      exact .inr ⟨a, rfl, h⟩
    · rintro (h | ⟨a', h, hf⟩)
      · cases h
      · cases h
        exact hf

/-- A result that is returned is the result. -/
theorem pure_eq_ok {a b : α} : (pure a : Except ε α) = .ok b ↔ a = b := by
  constructor
  · intro h
    cases h
    rfl
  · intro h
    rw [h]
    rfl

/-- A choice whose second branch fails gives a result exactly when the condition holds and the first branch gives it. -/
theorem ite_error_eq_ok {p : Prop} [Decidable p] {x : Except ε α} {e : ε} {a : α} :
    (if p then x else .error e) = .ok a ↔ p ∧ x = .ok a := by
  by_cases hp : p <;> simp [hp]

/-- A choice whose first branch fails gives a result exactly when the condition fails and the second branch gives it. -/
theorem error_ite_eq_ok {p : Prop} [Decidable p] {x : Except ε α} {e : ε} {a : α} :
    (if p then .error e else x) = .ok a ↔ ¬p ∧ x = .ok a := by
  by_cases hp : p <;> simp [hp]

/-- A choice between two computations that go on alike. -/
theorem ite_bind_eq_ok {p : Prop} [Decidable p] {x y : Except ε α} {f : α → Except ε β} {b : β} :
    (if p then x >>= f else y >>= f) = .ok b ↔ ∃ a, (if p then x else y) = .ok a ∧ f a = .ok b := by
  by_cases hp : p
  · rw [if_pos hp, if_pos hp, bind_eq_ok]
  · rw [if_neg hp, if_neg hp, bind_eq_ok]

/-- A traversal for its effect alone succeeds exactly when it succeeds on every element. -/
theorem forM_eq_ok {xs : List α} {f : α → Except ε PUnit} {r : PUnit} :
    xs.forM f = .ok r ↔ ∀ x ∈ xs, f x = .ok ⟨⟩ := by
  induction xs with
  | nil =>
    constructor
    · intro _ x hx
      exact absurd hx List.not_mem_nil
    · intro _
      rfl
  | cons x xs ih =>
    have hcons : (x :: xs).forM f = (f x >>= fun _ => xs.forM f) := rfl
    rw [hcons, bind_eq_ok]
    constructor
    · rintro ⟨⟨⟩, hx, hxs⟩ y hy
      rcases List.mem_cons.1 hy with rfl | hy
      · exact hx
      · exact ih.1 hxs y hy
    · intro h
      exact ⟨⟨⟩, h x List.mem_cons_self, ih.2 fun y hy => h y (List.mem_cons_of_mem x hy)⟩

/-- A traversal that collects results: the results belong to the elements, place by place. -/
theorem mapM_getElem? {f : α → Except ε β} :
    ∀ {xs : List α} {ys : List β}, xs.mapM f = .ok ys →
      ys.length = xs.length ∧ ∀ (i : Nat) (y : β), ys[i]? = some y → ∃ x, xs[i]? = some x ∧ f x = .ok y
  | [], ys, h => by
    rw [List.mapM_nil, pure_eq_ok] at h
    subst h
    exact ⟨rfl, fun i y hy => by simp at hy⟩
  | x :: xs, ys, h => by
    rw [List.mapM_cons, bind_eq_ok] at h
    obtain ⟨y, hy, h⟩ := h
    rw [bind_eq_ok] at h
    obtain ⟨zs, hzs, h⟩ := h
    rw [pure_eq_ok] at h
    subst h
    obtain ⟨hlen, hget⟩ := mapM_getElem? hzs
    refine ⟨by rw [List.length_cons, List.length_cons, hlen], ?_⟩
    intro i z hz
    cases i with
    | zero =>
      rw [List.getElem?_cons_zero, Option.some.injEq] at hz
      subst hz
      exact ⟨x, List.getElem?_cons_zero, hy⟩
    | succ i =>
      rw [List.getElem?_cons_succ] at hz ⊢
      exact hget i z hz

/-- What a list of computations gives at a place comes from the item at this place. -/
theorem mapM_getElem?_of_getElem? {f : α → Except ε β} {xs : List α} {ys : List β} (h : xs.mapM f = .ok ys) {i : Nat} {x : α}
    (hx : xs[i]? = some x) : ∃ y, ys[i]? = some y ∧ f x = .ok y := by
  obtain ⟨hlen, hget⟩ := mapM_getElem? h
  have hlt : i < ys.length := hlen ▸ (List.getElem?_eq_some_iff.1 hx).1
  obtain ⟨x', hx', hf⟩ := hget i _ (List.getElem?_eq_getElem hlt)
  rw [hx, Option.some.injEq] at hx'
  exact ⟨_, List.getElem?_eq_getElem hlt, hx' ▸ hf⟩

/-- Every result of a traversal is the result of some element. -/
theorem mapM_mem {f : α → Except ε β} {xs : List α} {ys : List β} (h : xs.mapM f = .ok ys) :
    ∀ y ∈ ys, ∃ x ∈ xs, f x = .ok y := by
  intro y hy
  obtain ⟨i, hi⟩ := List.mem_iff_getElem?.1 hy
  obtain ⟨x, hx, hf⟩ := (mapM_getElem? h).2 i y hi
  exact ⟨x, List.mem_of_getElem? hx, hf⟩

/-- Every element of a traversal has its result. -/
theorem mapM_mem_of_mem {f : α → Except ε β} {xs : List α} {ys : List β} (h : xs.mapM f = .ok ys) :
    ∀ x ∈ xs, ∃ y ∈ ys, f x = .ok y := by
  intro x hx
  obtain ⟨i, hi⟩ := List.mem_iff_getElem?.1 hx
  obtain ⟨y, hy, hf⟩ := mapM_getElem?_of_getElem? h hi
  exact ⟨y, List.mem_of_getElem? hy, hf⟩

/-- What every step keeps of its element, the traversal keeps. -/
theorem mapM_map {γ : Type w} {f : α → Except ε β} {p : β → γ} {q : α → γ} (hf : ∀ x y, f x = .ok y → p y = q x) :
    ∀ {xs : List α} {ys : List β}, xs.mapM f = .ok ys → ys.map p = xs.map q
  | [], ys, h => by
    rw [List.mapM_nil, pure_eq_ok] at h
    subst h
    rfl
  | x :: xs, ys, h => by
    rw [List.mapM_cons, bind_eq_ok] at h
    obtain ⟨y, hy, h⟩ := h
    obtain ⟨zs, hzs, h⟩ := bind_eq_ok.1 h
    rw [pure_eq_ok] at h
    subst h
    rw [List.map_cons, List.map_cons, hf x y hy, mapM_map hf hzs]

/-- A loop over the numbers below a bound: what holds before it and is kept by every step that succeeds holds after it. The
invariant knows how many numbers are done. -/
theorem foldlM_range_induction {f : α → Nat → Except ε α} {P : Nat → α → Prop} :
    ∀ {n : Nat} {a b : α}, (List.range n).foldlM f a = .ok b → P 0 a →
      (∀ k, k < n → ∀ a a', P k a → f a k = .ok a' → P (k + 1) a') → P n b
  | 0, a, b, h, ha, _ => by
    rw [List.range_zero, List.foldlM_nil, pure_eq_ok] at h
    exact h ▸ ha
  | n + 1, a, b, h, ha, step => by
    rw [List.range_succ, List.foldlM_append, bind_eq_ok] at h
    obtain ⟨c, hc, h⟩ := h
    rw [List.foldlM_cons, bind_eq_ok] at h
    obtain ⟨d, hd, h⟩ := h
    rw [List.foldlM_nil, pure_eq_ok] at h
    have hn : P n c := foldlM_range_induction hc ha fun k hk => step k (Nat.lt_succ_of_lt hk)
    exact h ▸ step n (Nat.lt_succ_self n) c d hn hd

/-- A loop that fails has gone well up to some element, and fails there. -/
theorem foldlM_eq_error {γ : Type w} {f : α → γ → Except ε α} {e : ε} : ∀ {xs : List γ} {a : α}, xs.foldlM f a = .error e →
    ∃ before x after b, xs = before ++ x :: after ∧ before.foldlM f a = .ok b ∧ f b x = .error e
  | [], a, h => by cases h
  | x :: xs, a, h => by
    rw [List.foldlM_cons, bind_eq_error] at h
    rcases h with h | ⟨b, hb, h⟩
    · exact ⟨[], x, xs, a, rfl, rfl, h⟩
    · obtain ⟨before, y, after, c, rfl, hbefore, hy⟩ := foldlM_eq_error h
      refine ⟨x :: before, y, after, c, rfl, ?_, hy⟩
      rw [List.foldlM_cons, hb]
      exact hbefore

/-- Loops whose steps agree as long as an invariant holds agree. -/
theorem foldlM_congr {γ : Type w} {f g : α → γ → Except ε α} {P : α → Prop} : ∀ {xs : List γ} {a : α}, P a →
    (∀ x ∈ xs, ∀ a, P a → f a x = g a x) → (∀ x ∈ xs, ∀ a b, P a → f a x = .ok b → P b) → xs.foldlM f a = xs.foldlM g a
  | [], _, _, _, _ => rfl
  | x :: xs, a, ha, heq, hkeep => by
    rw [List.foldlM_cons, List.foldlM_cons, ← heq x List.mem_cons_self a ha]
    cases hx : f a x with
    | error e => rfl
    | ok b =>
      exact foldlM_congr (hkeep x List.mem_cons_self a b ha hx) (fun y hy => heq y (List.mem_cons_of_mem x hy))
        fun y hy => hkeep y (List.mem_cons_of_mem x hy)

/-! ## Computations that give a result -/

/-- A computation gives a result. -/
def Returns (x : Except ε α) : Prop := ∃ a, x = .ok a

/-- What a computation is to give can be decided for its result. -/
instance decidableForallOk {x : Except ε α} {p : α → Prop} [DecidablePred p] : Decidable (∀ a, x = .ok a → p a) :=
  match x with
  | .ok a => decidable_of_iff (p a) ⟨fun h _ heq => Except.ok.inj heq ▸ h, fun h => h a rfl⟩
  | .error _ => isTrue fun _ h => by cases h

namespace Returns

variable {γ : Type w} {x y : Except ε α}

theorem ok (a : α) : Returns (.ok a : Except ε α) := ⟨a, rfl⟩

theorem pure (a : α) : Returns (Pure.pure a : Except ε α) := ⟨a, rfl⟩

/-- Steps that give results one after the other. -/
theorem bind {f : α → Except ε β} (hx : Returns x) (hf : ∀ a, x = .ok a → Returns (f a)) : Returns (x >>= f) := by
  obtain ⟨a, ha⟩ := hx
  rw [ha]
  exact hf a ha

/-- What is returned may be computed from the result of a step. -/
theorem map {g : α → β} (hx : Returns x) : Returns (x >>= fun a => Pure.pure (g a)) :=
  hx.bind fun a _ => .pure (g a)

/-- A choice between computations that give a result. -/
theorem ite {p : Prop} [Decidable p] (hx : p → Returns x) (hy : ¬p → Returns y) : Returns (if p then x else y) := by
  by_cases hp : p
  · rw [if_pos hp]
    exact hx hp
  · rw [if_neg hp]
    exact hy hp

/-- The same for a choice between two computations that go on alike. -/
theorem ite_bind {p : Prop} [Decidable p] {f : α → Except ε β} (hx : p → Returns x) (hy : ¬p → Returns y)
    (hf : ∀ a, Returns (f a)) : Returns (if p then x >>= f else y >>= f) :=
  .ite (fun hp => (hx hp).bind fun a _ => hf a) fun hp => (hy hp).bind fun a _ => hf a

/-- A list of computations, each of which gives a result. -/
theorem mapM {f : α → Except ε β} : ∀ {xs : List α}, (∀ x ∈ xs, Returns (f x)) → Returns (xs.mapM f)
  | [], _ => ⟨[], by rw [List.mapM_nil]; rfl⟩
  | x :: xs, h => by
    rw [List.mapM_cons]
    refine (h x List.mem_cons_self).bind fun y _ => ?_
    exact (mapM fun z hz => h z (List.mem_cons_of_mem x hz)).map

/-- A loop gives a result if every step does so from any state. -/
theorem foldlM {f : α → γ → Except ε α} :
    ∀ {xs : List γ} {a : α}, (∀ x ∈ xs, ∀ a, Returns (f a x)) → Returns (xs.foldlM f a)
  | [], a, _ => .pure a
  | x :: xs, a, h => by
    rw [List.foldlM_cons]
    refine (h x List.mem_cons_self a).bind fun b _ => ?_
    exact foldlM fun z hz => h z (List.mem_cons_of_mem x hz)

/-- A loop over the numbers below a bound gives a result, if every step does so from a state in which an invariant holds, and
keeps the invariant. -/
theorem foldlM_range {f : α → Nat → Except ε α} {P : Nat → α → Prop} :
    ∀ {n : Nat} {a : α}, P 0 a → (∀ k, k < n → ∀ a, P k a → ∃ a', f a k = .ok a' ∧ P (k + 1) a') →
      ∃ b, (List.range n).foldlM f a = .ok b ∧ P n b
  | 0, a, ha, _ => ⟨a, rfl, ha⟩
  | n + 1, a, ha, step => by
    obtain ⟨b, hb, hP⟩ := foldlM_range (n := n) ha fun k hk => step k (Nat.lt_succ_of_lt hk)
    obtain ⟨c, hc, hP'⟩ := step n (Nat.lt_succ_self n) b hP
    refine ⟨c, ?_, hP'⟩
    rw [List.range_succ, List.foldlM_append]
    refine bind_eq_ok.2 ⟨b, hb, ?_⟩
    rw [List.foldlM_cons, hc]
    rfl

end Returns

end FlatSchema
