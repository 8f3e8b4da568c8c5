import FlatSchema.Code.Writer

/-!
# Keys in lines

A key stands between the first two opening braces of a text and the first two closing braces behind them (`Writer.FirstPair`). What
is put in its place is not looked at again, and the search goes on behind it (`Writer.substitute_firstPair`). So a text in which no
key with a value stands between double braces stays as it is, however braces are nested or left open (`Writer.substitute_eq_self`).
-/

namespace FlatSchema.Writer

variable {c : Char} {s before after : List Char} {values : List (String × String)}

/-! ## The first pair of a character -/

/-- The first two adjacent occurrences of a character in a text have one part of it in front of them and the other behind them. -/
structure FirstPair (c : Char) (s before after : List Char) : Prop where
  parts : s = before ++ c :: c :: after
  first : ∀ before' after', s = before' ++ c :: c :: after' → before.length ≤ before'.length

/-- There is one first pair. -/
theorem FirstPair.unique (h : FirstPair c s before after) {before' after' : List Char} (h' : FirstPair c s before' after') :
    before = before' ∧ after = after' := by
  have hlength : before.length = before'.length := Nat.le_antisymm (h.first _ _ h'.parts) (h'.first _ _ h.parts)
  obtain ⟨hbefore, hafter⟩ := List.append_inj (h.parts.symm.trans h'.parts) hlength
  exact ⟨hbefore, (List.cons.inj (List.cons.inj hafter).2).2⟩

/-- A text is cut at the first pair of the character. -/
theorem firstPair_of_cutPair (h : cutPair c s = some (before, after)) : FirstPair c s before after := by
  fun_induction cutPair c s generalizing before with
  | case1 a b rest hc =>
    simp only [Option.some.injEq, Prod.mk.injEq] at h
    obtain ⟨rfl, rfl⟩ := h
    exact ⟨by simp [hc.1, hc.2], fun _ _ _ => Nat.zero_le _⟩
  | case2 a b rest hc ih =>
    obtain ⟨⟨front, back⟩, hcut, heq⟩ := Option.map_eq_some_iff.1 h
    simp only [Prod.mk.injEq] at heq
    obtain ⟨rfl, rfl⟩ := heq
    obtain ⟨hparts, hfirst⟩ := ih hcut
    refine ⟨by rw [hparts, List.cons_append], fun before' after' heq => ?_⟩
    -- A pair at the very start is ruled out, so any other pair lies in the text that was searched.
    cases before' with
    | nil =>
      simp only [List.nil_append, List.cons.injEq] at heq
      exact absurd ⟨heq.1, heq.2.1⟩ hc
    | cons x before' =>
      have hle := hfirst before' after' (List.cons.inj heq).2
      simp only [List.length_cons]
      omega
  | case3 => cases h

/-- A text that is not cut has no such pair. -/
theorem cutPair_eq_none (h : cutPair c s = none) (before after : List Char) : s ≠ before ++ c :: c :: after := by
  fun_induction cutPair c s generalizing before with
  | case1 => cases h
  | case2 a b rest hc ih =>
    intro heq
    cases before with
    | nil =>
      simp only [List.nil_append, List.cons.injEq] at heq
      exact hc ⟨heq.1, heq.2.1⟩
    | cons x before => exact ih (Option.map_eq_none_iff.1 h) before (List.cons.inj heq).2
  | case3 s hs =>
    intro heq
    cases before with
    | nil => exact hs c c after heq
    | cons x before =>
      cases before with
      | nil => exact hs x c (c :: after) heq
      | cons y before => exact hs x y (before ++ c :: c :: after) heq

/-- A text is cut at the first pair. -/
theorem cutPair_eq_some_iff : cutPair c s = some (before, after) ↔ FirstPair c s before after := by
  refine ⟨firstPair_of_cutPair, fun h => ?_⟩
  cases hcut : cutPair c s with
  | none => exact absurd h.parts (cutPair_eq_none hcut before after)
  | some p =>
    obtain ⟨hbefore, hafter⟩ := h.unique (firstPair_of_cutPair hcut)
    rw [hbefore, hafter]

/-! ## Keys and their values -/

/-- A key between double braces. -/
def placeholder (key : List Char) : List Char := '\x7b' :: '\x7b' :: (key ++ ['\x7d', '\x7d'])

/-- A key stands for its value, and for itself in braces if it has none. -/
theorem expansion_eq (values : List (String × String)) (key : List Char) :
    expansion values key = ((values.lookup (String.ofList key)).map String.toList).getD (placeholder key) := by
  unfold expansion
  cases values.lookup (String.ofList key) <;> rfl

/-- The text around a placeholder. -/
theorem parts_eq_placeholder {rest key : List Char} (h : FirstPair '\x7b' s before rest) (h' : FirstPair '\x7d' rest key after) :
    s = before ++ placeholder key ++ after := by
  rw [h.parts, h'.parts]
  simp [placeholder]

/-- Placeholders are filled in from left to right, each one once. -/
theorem substitute_eq (values : List (String × String)) (s : List Char) :
    substitute values s =
      match cutPair '\x7b' s with
      | none => s
      | some p =>
        match cutPair '\x7d' p.2 with
        | none => s
        | some q => p.1 ++ expansion values q.1 ++ substitute values q.2 := by
  rw [substitute]
  split
  next h => rw [h]
  next before rest h =>
    split
    next h' => simp only [h, h']
    next key after h' => simp only [h, h']

/-- The first key is replaced, and the search goes on behind it. -/
theorem substitute_firstPair {rest key : List Char} (h : FirstPair '\x7b' s before rest) (h' : FirstPair '\x7d' rest key after) :
    substitute values s = before ++ expansion values key ++ substitute values after := by
  rw [substitute_eq, cutPair_eq_some_iff.2 h]
  simp only [cutPair_eq_some_iff.2 h']

/-- A text stays as it is if no key with a value stands in it between double braces. -/
theorem substitute_eq_self (h : ∀ key value, values.lookup key = some value → ¬placeholder key.toList <:+: s) :
    substitute values s = s := by
  fun_induction substitute values s with
  | case1 s hcut => rfl
  | case2 s before rest hcut hcut' => rfl
  | case3 s before rest hcut key after hcut' hlt ih =>
    -- The key between the braces has no value, since it would stand in the text; the same holds for all keys behind it.
    have hs := parts_eq_placeholder (firstPair_of_cutPair hcut) (firstPair_of_cutPair hcut')
    have hkey : values.lookup (String.ofList key) = none := by
      refine Option.eq_none_iff_forall_ne_some.2 fun value hvalue => h _ value hvalue ?_
      rw [String.toList_ofList]
      exact ⟨before, after, hs.symm⟩
    have hafter : after <:+: s := ⟨before ++ placeholder key, [], by rw [hs, List.append_nil]⟩
    rw [ih fun k value hvalue hpart => h k value hvalue (hpart.trans hafter), expansion_eq, hkey, hs]
    rfl

/-- A key without a value stays as it is. -/
theorem substitute_nil (s : List Char) : substitute [] s = s := by
  refine substitute_eq_self fun key value h => ?_
  cases h

/-! ## Lines one after the other -/

/-- A line break in a text ends a line. -/
theorem line_append_break (w : Writer) (a b : String) : w.line (a ++ "\n" ++ b) = (w.line a).line b := by
  have hchars : (a ++ "\n" ++ b).toList = a.toList ++ '\n' :: b.toList := by simp
  unfold line
  rw [hchars, List.splitOn_append_cons_self, List.foldl_append]

/-- A writer in any state replaces keys in one pass. A text in which no key with a value stands between double braces stays as it is.
In any other text what stands in front of the first key stays, the key is replaced by its value or stays if it has none, and the same
is done to the text behind it and not to the value. Two texts with a line break between them are written like one after the other. -/
theorem substitute_single_pass (w : Writer) :
    (∀ t, (∀ key value, w.value? key = some value → ¬placeholder key.toList <:+: t) → substitute w.values t = t) ∧
    (∀ t before rest key after, FirstPair '\x7b' t before rest → FirstPair '\x7d' rest key after →
      substitute w.values t =
        before ++ ((w.value? (String.ofList key)).map String.toList).getD (placeholder key) ++ substitute w.values after) ∧
    ∀ a b : String, w.line (a ++ "\n" ++ b) = (w.line a).line b := by
  refine ⟨fun t h => substitute_eq_self h, fun t before rest key after h h' => ?_, w.line_append_break⟩
  rw [substitute_firstPair h h', expansion_eq]
  rfl

/-- A writer with a key whose value is another key between double braces. -/
def nestedWriter : Writer where
  values := [("A", "\x7b\x7bB\x7d\x7d"), ("B", "b")]

/-- The key that is put in is not replaced, and neither is a key behind three braces. -/
theorem nestedWriter_single_pass :
    substitute nestedWriter.values "p\x7b\x7bA\x7d\x7d\x7b\x7b\x7bB\x7d\x7d".toList =
      "p\x7b\x7bB\x7d\x7d".toList ++ substitute nestedWriter.values "\x7b\x7b\x7bB\x7d\x7d".toList ∧
    substitute nestedWriter.values "\x7b\x7bC\x7d\x7d \x7b\x7bA\x7d \x7b\x7bB".toList =
      "\x7b\x7bC\x7d\x7d \x7b\x7bA\x7d \x7b\x7bB".toList := by
  obtain ⟨hself, hfirst, _⟩ := substitute_single_pass nestedWriter
  have hopen : FirstPair '\x7b' "p\x7b\x7bA\x7d\x7d\x7b\x7b\x7bB\x7d\x7d".toList ['p'] "A\x7d\x7d\x7b\x7b\x7bB\x7d\x7d".toList :=
    cutPair_eq_some_iff.1 (by decide +kernel)
  have hclose : FirstPair '\x7d' "A\x7d\x7d\x7b\x7b\x7bB\x7d\x7d".toList ['A'] "\x7b\x7b\x7bB\x7d\x7d".toList :=
    cutPair_eq_some_iff.1 (by decide +kernel)
  refine ⟨(hfirst _ _ _ _ _ hopen hclose).trans (congrArg (· ++ _) (by decide +kernel)), hself _ fun key value hvalue => ?_⟩
  have hkey : key = "A" ∨ key = "B" := by
    by_cases hA : key = "A"
    · exact .inl hA
    · by_cases hB : key = "B"
      · exact .inr hB
      · simp [value?, nestedWriter, List.lookup_cons, beq_false_of_ne hA, beq_false_of_ne hB] at hvalue
  rcases hkey with rfl | rfl
  · decide +kernel
  · decide +kernel

end FlatSchema.Writer
