import FlatSchema.Json.Printer
import FlatSchema.Json.Reader
import Mathlib.Data.List.TakeDrop
import Mathlib.Tactic.SplitIfs

/-!
# JSON texts and their values

The texts of a value are given by a grammar (`Json.Spells`): blanks may stand around items, keys and values, and numbers are
integers. The reader finds the value of every text of the grammar (`Json.read?_of_spells`).
-/

namespace FlatSchema.Json

/-! ## Blanks -/

/-- A text of blanks. -/
def Blank (s : List Char) : Prop := ∀ c ∈ s, isSpace c = true

theorem blank_nil : Blank [] := fun _ hc => absurd hc List.not_mem_nil

theorem skipSpace_append {b : List Char} (hb : Blank b) (s : List Char) : skipSpace (b ++ s) = skipSpace s :=
  List.dropWhile_append_of_pos hb

theorem skipSpace_cons {c : Char} (hc : isSpace c = false) (s : List Char) : skipSpace (c :: s) = c :: s :=
  List.dropWhile_cons_of_neg (by simp [hc])

theorem skipSpace_append_cons {b : List Char} (hb : Blank b) {c : Char} (hc : isSpace c = false) (s : List Char) :
    skipSpace (b ++ c :: s) = c :: s := by
  rw [skipSpace_append hb, skipSpace_cons hc]

/-- Blanks are skipped once. -/
theorem skipSpace_skipSpace (s : List Char) : skipSpace (skipSpace s) = skipSpace s := by
  induction s with
  | nil => rfl
  | cons c s ih =>
    by_cases hc : isSpace c = true
    · have hdrop : skipSpace (c :: s) = skipSpace s := List.dropWhile_cons_of_pos hc
      rw [hdrop, ih]
    · have hkeep : skipSpace (c :: s) = c :: s := skipSpace_cons (Bool.eq_false_iff.2 hc) s
      rw [hkeep, hkeep]

/-- A value may have blanks in front. -/
theorem readValue?_skipSpace (fuel depth : Nat) (s : List Char) :
    readValue? fuel depth (skipSpace s) = readValue? fuel depth s := by
  cases fuel with
  | zero => rfl
  | succ fuel => rw [readValue?, readValue?, skipSpace_skipSpace]

/-- Items may have blanks in front. -/
theorem readItems?_skipSpace (fuel depth : Nat) (s : List Char) :
    readItems? fuel depth (skipSpace s) = readItems? fuel depth s := by
  cases fuel with
  | zero => rfl
  | succ fuel => rw [readItems?, readItems?, readValue?_skipSpace]

/-- Members may have blanks in front. -/
theorem readMembers?_skipSpace (fuel depth : Nat) (s : List Char) :
    readMembers? fuel depth (skipSpace s) = readMembers? fuel depth s := by
  cases fuel with
  | zero => rfl
  | succ fuel => rw [readMembers?, readMembers?, skipSpace_skipSpace]

/-! ## Strings -/

theorem hexValue?_hexDigit : ∀ n < 16, hexValue? (hexDigit n) = some n := by decide

/-- A control character is got back from the two hexadecimal digits of its number. -/
theorem readString?_control {c : Char} (hc : c.toNat < 32) (rest : List Char) :
    readString? ('\\' :: 'u' :: '0' :: '0' :: hexDigit (c.toNat / 16) :: hexDigit (c.toNat % 16) :: rest) =
      (readString? rest).map fun p => (c :: p.1, p.2) := by
  have hhigh := hexValue?_hexDigit (c.toNat / 16) (by omega)
  have hlow := hexValue?_hexDigit (c.toNat % 16) (by omega)
  have hzero : hexValue? '0' = some 0 := by decide
  have hnumber : c.toNat / 16 * 16 + c.toNat % 16 = c.toNat := by omega
  have hhex : hex4? '0' '0' (hexDigit (c.toNat / 16)) (hexDigit (c.toNat % 16)) = some c.toNat := by
    simp [hex4?, hhigh, hlow, hzero, hnumber]
  have hunit : unit? c.toNat = some c := by
    rw [unit?, if_neg (by omega), Char.ofNat_toNat]
  rw [readString?, hhex]
  simp only [Option.bind_eq_bind, Option.bind_some, hunit]
  cases readString? rest <;> rfl

/-- A character that needs no escape stands for itself. -/
theorem readString?_plain {c : Char} (hquote : c ≠ '"') (hback : c ≠ '\\') (hc : ¬c.toNat < 32) (rest : List Char) :
    readString? (c :: rest) = (readString? rest).map fun p => (c :: p.1, p.2) := by
  rw [readString?]
  · rw [if_neg (by simp [hback, hc])]
    cases readString? rest <;> rfl
  all_goals simp [hquote, hback]

/-- An escaped character is read back as one character. -/
theorem readString?_escapeChar (c : Char) (rest : List Char) :
    readString? (escapeChar c ++ rest) = (readString? rest).map fun p => (c :: p.1, p.2) := by
  have hletter : ∀ x d : Char, x ≠ 'u' → escaped? x = some d →
      readString? ('\\' :: x :: rest) = (readString? rest).map fun p => (d :: p.1, p.2) := by
    intro x d hx hd
    rw [readString?]
    · simp only [hd, Option.bind_eq_bind, Option.bind_some]
      cases readString? rest <;> rfl
    · simp [hx]
  have hnat : ∀ k : Nat, c.toNat = k → c = Char.ofNat k := by
    intro k hk
    rw [← hk, Char.ofNat_toNat]
  unfold escapeChar
  split_ifs with hquote hback h h h h h h
  · exact hletter '"' c (by decide) (by rw [hquote]; rfl)
  · exact hletter '\\' c (by decide) (by rw [hback]; rfl)
  · exact hletter 'n' c (by decide) (by rw [h]; rfl)
  · exact hletter 't' c (by decide) (by rw [h]; rfl)
  · exact hletter 'r' c (by decide) (by rw [h]; rfl)
  · exact hletter 'b' c (by decide) (by rw [hnat 8 h]; rfl)
  · exact hletter 'f' c (by decide) (by rw [hnat 12 h]; rfl)
  · exact readString?_control h rest
  · exact readString?_plain hquote hback h rest

/-- A text is read back up to its closing quote. -/
theorem readString?_quote (t : String) (rest : List Char) :
    readString? (t.toList.flatMap escapeChar ++ '"' :: rest) = some (t.toList, rest) := by
  induction t.toList with
  | nil => rfl
  | cons c cs ih => rw [List.flatMap_cons, List.append_assoc, readString?_escapeChar, ih, Option.map_some]

/-! ## Numbers -/

/-- A text does not go on with a number. -/
def Ends (s : List Char) : Prop := ∀ c ∈ s.head?, c.isDigit = false ∧ c ≠ '.' ∧ c ≠ 'e' ∧ c ≠ 'E'

/-- The four blanks. -/
theorem isSpace_cases {c : Char} (hc : isSpace c = true) : c = ' ' ∨ c = '\t' ∨ c = '\r' ∨ c = '\n' := by
  simpa [isSpace, or_assoc] using hc

/-- A blank ends a number too. -/
theorem Ends.blank {b : List Char} (hb : Blank b) {s : List Char} (hs : Ends s) : Ends (b ++ s) := by
  cases b with
  | nil => exact hs
  | cons c b =>
    rintro d ⟨⟩
    rcases isSpace_cases (hb c List.mem_cons_self) with rfl | rfl | rfl | rfl <;> decide

/-- The digits of a number that is not zero do not start with a zero. -/
theorem toDigits_ne_zero_cons : ∀ {n : Nat}, n ≠ 0 → ∀ s, Nat.toDigits 10 n ≠ '0' :: s := by
  intro n
  induction n using Nat.strongRecOn with
  | ind n ih =>
    intro hn s hs
    by_cases hlt : n < 10
    · rw [Nat.toDigits_of_lt_base hlt] at hs
      simp only [List.cons.injEq, Nat.digitChar_eq_zero] at hs
      exact hn hs.1
    · rw [Nat.toDigits_of_base_le (by decide) (by omega)] at hs
      cases hd : Nat.toDigits 10 (n / 10) with
      | nil => exact Nat.toDigits_ne_nil hd
      | cons c t =>
        rw [hd] at hs
        injection hs with hc _
        exact ih (n / 10) (by omega) (by omega) t (hc ▸ hd)

/-- The digits of a number go up to what ends it. -/
theorem span_digits {ds rest : List Char} (hds : ∀ c ∈ ds, c.isDigit = true) (hrest : Ends rest) :
    (ds ++ rest).span Char.isDigit = (ds, rest) := by
  have hstop : rest.takeWhile Char.isDigit = [] ∧ rest.dropWhile Char.isDigit = rest := by
    cases rest with
    | nil => exact ⟨rfl, rfl⟩
    | cons c rest => simp [(hrest c rfl).1]
  rw [List.span_eq_takeWhile_dropWhile, List.takeWhile_append_of_pos hds, List.dropWhile_append_of_pos hds, hstop.1, hstop.2,
    List.append_nil]

/-- A number is written with digits. -/
theorem toDigits_isDigit (n : Nat) : ∀ c ∈ Nat.toDigits 10 n, c.isDigit = true := by
  intro c hc
  exact Nat.isDigit_of_mem_toDigits (by decide) (by decide) hc

/-- The first of the digits of a number. -/
theorem toDigits_eq_cons (n : Nat) : ∃ c t, Nat.toDigits 10 n = c :: t ∧ c.isDigit = true := by
  obtain ⟨c, t, hd⟩ := List.exists_cons_of_ne_nil (Nat.toDigits_ne_nil (n := n) (b := 10))
  exact ⟨c, t, hd, toDigits_isDigit n c (by rw [hd]; exact List.mem_cons_self)⟩

/-- The digits of a number are read back: there are no zeros in front. -/
theorem readWhole?_toDigits (n : Nat) {rest : List Char} (hrest : Ends rest) :
    readWhole? (Nat.toDigits 10 n ++ rest) = some (Nat.toDigits 10 n, rest) := by
  by_cases hn : n = 0
  · subst hn
    rfl
  · rw [readWhole?, span_digits (toDigits_isDigit n) hrest]
    · exact if_neg (by simp [Nat.toDigits_ne_nil])
    · intro r hr
      obtain ⟨c, t, hd, _⟩ := toDigits_eq_cons n
      rw [hd] at hr
      injection hr with hc _
      exact toDigits_ne_zero_cons hn t (hc ▸ hd)

/-- A whole number has no fraction. -/
theorem readFraction?_ends {rest : List Char} (hrest : Ends rest) : readFraction? rest = some ([], rest) := by
  rw [readFraction?]
  rintro s rfl
  exact (hrest '.' rfl).2.1 rfl

/-- A whole number has no exponent. -/
theorem readExponent?_ends {rest : List Char} (hrest : Ends rest) : Decimal.readExponent? rest = some (0, rest) := by
  unfold Decimal.readExponent?
  split
  next r => exact absurd rfl (hrest 'e' rfl).2.2.1
  next r => exact absurd rfl (hrest 'E' rfl).2.2.2
  next => rfl

/-- The number of a literal without a fraction and an exponent. -/
theorem numberOf?_int {negative : Bool} {n : Nat} {v : Int} (hv : Number.inIntegerRange v = true)
    (hvalue : v = if negative then -(n : Int) else n) (hzero : negative = true → n ≠ 0) :
    numberOf? negative true (Decimal.ofDigits negative (Nat.toDigits 10 n) [] 0) = some (.int v) := by
  have hdigits : (Decimal.ofDigits negative (Nat.toDigits 10 n) [] 0).significand = n := by
    simp [Decimal.ofDigits, Text.natOfDigits]
  have hnot : (negative && n == 0) = false := by
    cases negative with
    | true => simpa using hzero rfl
    | false => rfl
  unfold numberOf?
  dsimp only
  rw [hdigits, ← hvalue, hv, hnot]
  rfl

theorem toString_ofNat (n : Nat) : (toString (Int.ofNat n)).toList = Nat.toDigits 10 n := Nat.toList_repr

theorem toString_negSucc (n : Nat) : (toString (Int.negSucc n)).toList = '-' :: Nat.toDigits 10 (n + 1) := by
  show ("-" ++ Nat.repr (n + 1)).toList = _
  rw [String.toList_append, Nat.toList_repr]
  rfl

/-- The text of an integer has digits and a sign. -/
theorem toString_chars (v : Int) : ∀ c ∈ (toString v).toList, c.isDigit = true ∨ c = '-' := by
  intro c hc
  cases v with
  | ofNat n =>
    rw [toString_ofNat] at hc
    exact .inl (toDigits_isDigit n c hc)
  | negSucc n =>
    rw [toString_negSucc] at hc
    rcases List.mem_cons.1 hc with hc | hc
    · exact .inr hc
    · exact .inl (toDigits_isDigit (n + 1) c hc)

/-- An integer in range is read from its text. -/
theorem readNumber?_toString {v : Int} (hv : Number.inIntegerRange v = true) {rest : List Char} (hrest : Ends rest) :
    readNumber? ((toString v).toList ++ rest) = some (.int v, rest) := by
  cases v with
  | ofNat n =>
    have hvalue : Int.ofNat n = if false = true then -(n : Int) else n := rfl
    have hnumber := numberOf?_int hv hvalue nofun
    -- the digits of a number do not begin with a sign
    have hsign : ∀ r, Nat.toDigits 10 n ++ rest ≠ '-' :: r := by
      intro r hr
      obtain ⟨c, t, hd, hc⟩ := toDigits_eq_cons n
      rw [hd] at hr
      injection hr with hminus _
      rw [hminus] at hc
      cases hc
    rw [toString_ofNat]
    unfold readNumber?
    split
    next negative body heq =>
    split at heq
    next r hr => exact absurd hr (hsign r)
    next =>
      cases heq
      simp only [readWhole?_toDigits n hrest, readFraction?_ends hrest, readExponent?_ends hrest, Option.bind_eq_bind,
        Option.bind_some, BEq.rfl, hnumber]
      rfl
  | negSucc n =>
    have hvalue : Int.negSucc n = if true = true then -((n + 1 : Nat) : Int) else (n + 1 : Nat) := rfl
    have hnumber := numberOf?_int hv hvalue fun _ => Nat.succ_ne_zero n
    rw [toString_negSucc, List.cons_append]
    unfold readNumber?
    simp only [readWhole?_toDigits (n + 1) hrest, readFraction?_ends hrest, readExponent?_ends hrest, Option.bind_eq_bind,
      Option.bind_some, BEq.rfl, hnumber]
    rfl

/-! ## The grammar -/

/-- What a text can stand for: a value, what is between the brackets of an array, or what is between the braces of an object. -/
inductive Part
  | value (v : Json)
  | items (vs : List Json)
  | members (ms : List (String × Json))

/-- A text spells a part of a document in which arrays and objects nest at most so deep. -/
inductive Spells : Nat → Part → List Char → Prop
  | null {n : Nat} : Spells n (.value .null) "null".toList
  | bool {n : Nat} (b : Bool) : Spells n (.value (.bool b)) (if b then "true" else "false").toList
  | int {n : Nat} {v : Int} (hv : Number.inIntegerRange v = true) : Spells n (.value (.number (.int v))) (toString v).toList
  | string {n : Nat} (t : String) : Spells n (.value (.string t)) (quote t).toList
  | array {n : Nat} {vs : List Json} {s : List Char} (hs : Spells n (.items vs) s) :
    Spells (n + 1) (.value (.array vs)) ('[' :: (s ++ [']']))
  | object {n : Nat} {ms : List (String × Json)} {s : List Char} (hs : Spells n (.members ms) s) :
    Spells (n + 1) (.value (.object ms)) ('\x7b' :: (s ++ ['\x7d']))
  | noItem {n : Nat} {b : List Char} (hb : Blank b) : Spells n (.items []) b
  | lastItem {n : Nat} {v : Json} {a s b : List Char} (ha : Blank a) (hs : Spells n (.value v) s) (hb : Blank b) :
    Spells n (.items [v]) (a ++ (s ++ b))
  | item {n : Nat} {v w : Json} {vs : List Json} {a s b r : List Char} (ha : Blank a) (hs : Spells n (.value v) s) (hb : Blank b)
    (hr : Spells n (.items (w :: vs)) r) : Spells n (.items (v :: w :: vs)) (a ++ (s ++ (b ++ ',' :: r)))
  | noMember {n : Nat} {b : List Char} (hb : Blank b) : Spells n (.members []) b
  | lastMember {n : Nat} {k : String} {v : Json} {a b c d s : List Char} (ha : Blank a) (hb : Blank b) (hc : Blank c)
    (hs : Spells n (.value v) s) (hd : Blank d) :
    Spells n (.members [(k, v)]) (a ++ ((quote k).toList ++ (b ++ ':' :: (c ++ (s ++ d)))))
  | member {n : Nat} {k : String} {v : Json} {m : String × Json} {ms : List (String × Json)} {a b c d s r : List Char}
    (ha : Blank a) (hb : Blank b) (hc : Blank c) (hs : Spells n (.value v) s) (hd : Blank d)
    (hr : Spells n (.members (m :: ms)) r) :
    Spells n (.members ((k, v) :: m :: ms)) (a ++ ((quote k).toList ++ (b ++ ':' :: (c ++ (s ++ (d ++ ',' :: r))))))

/-- The first character of the text of an integer. -/
theorem toString_cons (v : Int) : ∃ c t, (toString v).toList = c :: t ∧ (c.isDigit = true ∨ c = '-') := by
  have hne : (toString v).toList ≠ [] := by
    cases v with
    | ofNat n => rw [toString_ofNat]; exact Nat.toDigits_ne_nil
    | negSucc n => rw [toString_negSucc]; exact List.cons_ne_nil _ _
  obtain ⟨c, t, htext⟩ := List.exists_cons_of_ne_nil hne
  exact ⟨c, t, htext, toString_chars v c (htext ▸ List.mem_cons_self)⟩

theorem quote_toList (t : String) : (quote t).toList = '"' :: (t.toList.flatMap escapeChar ++ ['"']) := String.toList_ofList

/-- A text of a value starts with a character that is no blank and no closing bracket. -/
theorem Spells.value_cons {n : Nat} {v : Json} {s : List Char} (h : Spells n (.value v) s) :
    ∃ c t, s = c :: t ∧ isSpace c = false ∧ c ≠ ']' := by
  cases h with
  | null => exact ⟨_, _, rfl, by decide, by decide⟩
  | bool b => cases b <;> exact ⟨_, _, rfl, by decide, by decide⟩
  | @int _ v hv =>
    obtain ⟨c, t, hs, hc⟩ := toString_cons v
    refine ⟨c, t, hs, Bool.eq_false_iff.2 fun hspace => ?_, ?_⟩
    · rcases isSpace_cases hspace with rfl | rfl | rfl | rfl <;> exact absurd hc (by decide)
    · rintro rfl
      exact absurd hc (by decide)
  | string t => exact ⟨_, _, quote_toList t, by decide, by decide⟩
  | array => exact ⟨_, _, rfl, by decide, by decide⟩
  | object => exact ⟨_, _, rfl, by decide, by decide⟩

/-! ## Reading the texts of the grammar -/

/-- What the reader does with a text of a part. Every step but the one from an array to its first item takes a character away. -/
def Read (n : Nat) (s : List Char) : Part → Prop
  | .value v => ∀ fuel rest, 2 * s.length ≤ fuel → Ends rest → readValue? fuel n (s ++ rest) = some (v, rest)
  | .items vs => vs ≠ [] → ∀ fuel rest, 2 * s.length < fuel → readItems? fuel n (s ++ ']' :: rest) = some (vs, rest)
  | .members ms => ms ≠ [] → ∀ fuel rest, 2 * s.length < fuel → readMembers? fuel n (s ++ '\x7d' :: rest) = some (ms, rest)

/-- Separators and brackets end a number. -/
theorem Ends.closing {c : Char} (hc : c = ',' ∨ c = ']' ∨ c = '\x7d') (s : List Char) : Ends (c :: s) := by
  rintro d ⟨⟩
  rcases hc with rfl | rfl | rfl <;> decide

/-- A digit or a sign begins a number. -/
theorem readValue?_number {c : Char} (hc : c.isDigit = true ∨ c = '-') (fuel n : Nat) (s : List Char) :
    readValue? (fuel + 1) n (c :: s) = (readNumber? (c :: s)).map fun p => (.number p.1, p.2) := by
  have hspace : isSpace c = false := by
    refine Bool.eq_false_iff.2 fun hspace => ?_
    rcases isSpace_cases hspace with rfl | rfl | rfl | rfl <;> exact absurd hc (by decide)
  have hne : ∀ d t, c :: s = d :: t → d.isDigit = true ∨ d = '-' := by
    rintro d t ⟨⟩
    exact hc
  rw [readValue?, skipSpace_cons hspace]
  split
  case h_7 => rfl
  all_goals exact absurd (hne _ _ ‹_›) (by decide)

/-- Reading a value in front of which blanks stand. -/
theorem Read.padded {n : Nat} {v : Json} {s : List Char} (h : Read n s (.value v)) {a : List Char} (ha : Blank a) {fuel : Nat}
    {rest : List Char} (hfuel : 2 * s.length ≤ fuel) (hrest : Ends rest) :
    readValue? fuel n (a ++ (s ++ rest)) = some (v, rest) := by
  rw [← readValue?_skipSpace, skipSpace_append ha, readValue?_skipSpace]
  exact h fuel rest hfuel hrest

section Start

variable {n : Nat} {s : List Char}

/-- A text of a value is not empty, so that a step is left to read it. -/
theorem Read.of_value {v : Json} (hs : s ≠ []) (h : ∀ fuel rest, 2 * s.length ≤ fuel + 1 → Ends rest →
    readValue? (fuel + 1) n (s ++ rest) = some (v, rest)) : Read n s (.value v) := by
  intro fuel rest hfuel hrest
  have hlen := List.length_pos_iff.2 hs
  obtain ⟨fuel, rfl⟩ := Nat.exists_eq_add_one.2 (show 0 < fuel by omega)
  exact h fuel rest hfuel hrest

/-- Items are read with one step more than they have characters, twice over. -/
theorem Read.of_items {vs : List Json} (h : ∀ fuel rest, 2 * s.length ≤ fuel →
    readItems? (fuel + 1) n (s ++ ']' :: rest) = some (vs, rest)) : Read n s (.items vs) := by
  intro _ fuel rest hfuel
  obtain ⟨fuel, rfl⟩ := Nat.exists_eq_add_one.2 (Nat.zero_lt_of_lt hfuel)
  exact h fuel rest (Nat.le_of_lt_succ hfuel)

theorem Read.of_members {ms : List (String × Json)} (h : ∀ fuel rest, 2 * s.length ≤ fuel →
    readMembers? (fuel + 1) n (s ++ '\x7d' :: rest) = some (ms, rest)) : Read n s (.members ms) := by
  intro _ fuel rest hfuel
  obtain ⟨fuel, rfl⟩ := Nat.exists_eq_add_one.2 (Nat.zero_lt_of_lt hfuel)
  exact h fuel rest (Nat.le_of_lt_succ hfuel)

end Start

section Steps

variable {fuel n : Nat} {v : Json} {vs : List Json} {k : String} {ms : List (String × Json)} {a b c d s r rest : List Char}

/-- The last item is followed by the bracket. -/
theorem readItems?_last (hv : readValue? fuel n s = some (v, b ++ ']' :: rest)) (hb : Blank b) :
    readItems? (fuel + 1) n s = some ([v], rest) := by
  rw [readItems?, hv]
  simp only [Option.bind_eq_bind, Option.bind_some, skipSpace_append_cons hb (c := ']') (by decide)]
  rfl

/-- Every other item is followed by a comma. -/
theorem readItems?_more (hv : readValue? fuel n s = some (v, b ++ ',' :: r)) (hb : Blank b)
    (hr : readItems? fuel n r = some (vs, rest)) : readItems? (fuel + 1) n s = some (v :: vs, rest) := by
  rw [readItems?, hv]
  simp only [Option.bind_eq_bind, Option.bind_some, skipSpace_append_cons hb (c := ',') (by decide), hr]
  rfl

/-- The last member is followed by the brace. -/
theorem readMembers?_last (ha : Blank a) (hb : Blank b) (hv : readValue? fuel n s = some (v, d ++ '\x7d' :: rest)) (hd : Blank d) :
    readMembers? (fuel + 1) n (a ++ ((quote k).toList ++ (b ++ ':' :: s))) = some ([(k, v)], rest) := by
  rw [← readMembers?_skipSpace, skipSpace_append ha, readMembers?_skipSpace, quote_toList, List.cons_append, List.append_assoc,
    readMembers?, skipSpace_cons (by decide)]
  simp only [List.singleton_append, readString?_quote, Option.bind_eq_bind, Option.bind_some, String.ofList_toList,
    skipSpace_append_cons hb (c := ':') (by decide), hv, skipSpace_append_cons hd (c := '\x7d') (by decide)]
  rfl

/-- Every other member is followed by a comma. -/
theorem readMembers?_more (ha : Blank a) (hb : Blank b) (hv : readValue? fuel n s = some (v, d ++ ',' :: r)) (hd : Blank d)
    (hr : readMembers? fuel n r = some (ms, rest)) :
    readMembers? (fuel + 1) n (a ++ ((quote k).toList ++ (b ++ ':' :: s))) = some ((k, v) :: ms, rest) := by
  rw [← readMembers?_skipSpace, skipSpace_append ha, readMembers?_skipSpace, quote_toList, List.cons_append, List.append_assoc,
    readMembers?, skipSpace_cons (by decide)]
  simp only [List.singleton_append, readString?_quote, Option.bind_eq_bind, Option.bind_some, String.ofList_toList,
    skipSpace_append_cons hb (c := ':') (by decide), hv, skipSpace_append_cons hd (c := ',') (by decide), hr]
  rfl

/-- Items that are spelled do not begin with the closing bracket. -/
theorem Spells.items_first (hs : Spells n (.items (v :: vs)) s) :
    ∃ a c t, s = a ++ c :: t ∧ Blank a ∧ isSpace c = false ∧ c ≠ ']' := by
  cases hs with
  | @lastItem _ _ a s b ha hs hb =>
    obtain ⟨c, t, rfl, hspace, hc⟩ := hs.value_cons
    exact ⟨a, c, t ++ b, rfl, ha, hspace, hc⟩
  | @item _ _ w vs a s b r ha hs hb hr =>
    obtain ⟨c, t, rfl, hspace, hc⟩ := hs.value_cons
    exact ⟨a, c, t ++ (b ++ ',' :: r), rfl, ha, hspace, hc⟩

/-- Members that are spelled begin with a quote. -/
theorem Spells.members_first {m : String × Json} (hs : Spells n (.members (m :: ms)) s) :
    ∃ a t, s = a ++ '"' :: t ∧ Blank a := by
  cases hs with
  | lastMember ha =>
    rw [quote_toList]
    exact ⟨_, _, rfl, ha⟩
  | member ha =>
    rw [quote_toList]
    exact ⟨_, _, rfl, ha⟩

/-- An array is its items in brackets, and an empty one may have blanks in them. -/
theorem readValue?_array (hs : Spells n (.items vs) s) (hread : vs ≠ [] → readItems? fuel n (s ++ ']' :: rest) = some (vs, rest)) :
    readValue? (fuel + 1) (n + 1) ('[' :: (s ++ ']' :: rest)) = some (.array vs, rest) := by
  cases vs with
  | nil =>
    cases hs with
    | noItem hb =>
      simp only [readValue?, skipSpace_cons (c := '[') (by decide), skipSpace_append_cons hb (c := ']') (by decide)]
  | cons v vs =>
    have hitems := hread (List.cons_ne_nil v vs)
    obtain ⟨a, c, t, rfl, ha, hspace, hc⟩ := hs.items_first
    rw [← readItems?_skipSpace, List.append_assoc, List.cons_append, skipSpace_append_cons ha hspace] at hitems
    simp only [readValue?, skipSpace_cons (c := '[') (by decide), List.append_assoc, List.cons_append,
      skipSpace_append_cons ha hspace]
    split
    next r hr => exact absurd (List.cons.inj hr).1 hc
    next => rw [hitems, Option.map_some]

/-- An object is its members in braces, and an empty one may have blanks in them. -/
theorem readValue?_object (hs : Spells n (.members ms) s)
    (hread : ms ≠ [] → readMembers? fuel n (s ++ '\x7d' :: rest) = some (ms, rest)) :
    readValue? (fuel + 1) (n + 1) ('\x7b' :: (s ++ '\x7d' :: rest)) = some (.object ms, rest) := by
  cases ms with
  | nil =>
    cases hs with
    | noMember hb =>
      simp only [readValue?, skipSpace_cons (c := '\x7b') (by decide), skipSpace_append_cons hb (c := '\x7d') (by decide)]
  | cons m ms =>
    have hmembers := hread (List.cons_ne_nil m ms)
    obtain ⟨a, t, rfl, ha⟩ := hs.members_first
    rw [← readMembers?_skipSpace, List.append_assoc, List.cons_append, skipSpace_append_cons ha (by decide)] at hmembers
    simp only [readValue?, skipSpace_cons (c := '\x7b') (by decide), List.append_assoc, List.cons_append,
      skipSpace_append_cons ha (c := '"') (by decide)]
    split
    next r hr => exact absurd (List.cons.inj hr).1 (by decide)
    next => rw [hmembers, Option.map_some]

end Steps

/-- The reader reads all texts of the grammar. In each case the steps that are left are enough for the parts inside, which are shorter
texts. -/
theorem Spells.read {n : Nat} {p : Part} {s : List Char} (h : Spells n p s) : Read n s p := by
  -- the induction is on how the text is spelled; every character pays for two steps of the reader
  induction h with
  | null => exact .of_value (by decide) fun fuel rest _ _ => rfl
  | bool b => cases b <;> exact .of_value (by decide) fun fuel rest _ _ => rfl
  | @int _ v hv =>
    obtain ⟨c, t, hs, hc⟩ := toString_cons v
    refine .of_value (hs ▸ List.cons_ne_nil c t) fun fuel rest _ hrest => ?_
    have hread := readNumber?_toString hv hrest
    rw [hs, List.cons_append] at hread ⊢
    rw [readValue?_number hc, hread]
    rfl
  | string t =>
    rw [quote_toList]
    refine .of_value (List.cons_ne_nil _ _) fun fuel rest _ _ => ?_
    rw [List.cons_append, List.append_assoc, readValue?, skipSpace_cons (by decide)]
    simp only [List.singleton_append, readString?_quote, Option.map_some, String.ofList_toList]
  | @array n vs s hs ih =>
    refine .of_value (List.cons_ne_nil _ _) fun fuel rest hfuel _ => ?_
    simp only [List.length_cons, List.length_append, List.length_nil] at hfuel
    rw [List.cons_append, List.append_assoc, List.singleton_append]
    exact readValue?_array hs fun hne => ih hne fuel rest (by omega)
  | @object n ms s hs ih =>
    refine .of_value (List.cons_ne_nil _ _) fun fuel rest hfuel _ => ?_
    simp only [List.length_cons, List.length_append, List.length_nil] at hfuel
    rw [List.cons_append, List.append_assoc, List.singleton_append]
    exact readValue?_object hs fun hne => ih hne fuel rest (by omega)
  | noItem hb => exact fun hne => absurd rfl hne
  | @lastItem n v a s b ha hs hb ih =>
    refine .of_items fun fuel rest hfuel => ?_
    simp only [List.length_append] at hfuel
    refine readItems?_last (b := b) ?_ hb
    simp only [List.append_assoc]
    exact ih.padded ha (by omega) (.blank hb (.closing (.inr (.inl rfl)) rest))
  | @item n v w vs a s b r ha hs hb hr ih ih' =>
    refine .of_items fun fuel rest hfuel => ?_
    simp only [List.length_append, List.length_cons] at hfuel
    refine readItems?_more (b := b) (r := r ++ ']' :: rest) ?_ hb (ih' (List.cons_ne_nil _ _) fuel rest (by omega))
    simp only [List.append_assoc, List.cons_append]
    exact ih.padded ha (by omega) (.blank hb (.closing (.inl rfl) _))
  | noMember hb => exact fun hne => absurd rfl hne
  | @lastMember n k v a b c d s ha hb hc hs hd ih =>
    refine .of_members fun fuel rest hfuel => ?_
    simp only [List.length_append, List.length_cons] at hfuel
    simp only [List.append_assoc, List.cons_append]
    exact readMembers?_last ha hb (ih.padded hc (by omega) (.blank hd (.closing (.inr (.inr rfl)) rest))) hd
  | @member n k v m ms a b c d s r ha hb hc hs hd hr ih ih' =>
    refine .of_members fun fuel rest hfuel => ?_
    simp only [List.length_append, List.length_cons] at hfuel
    simp only [List.append_assoc, List.cons_append]
    exact readMembers?_more ha hb (ih.padded hc (by omega) (.blank hd (.closing (.inl rfl) _))) hd
      (ih' (List.cons_ne_nil _ _) fuel rest (by omega))

/-- A document that spells a value, with blanks behind it, is read as this value. -/
theorem read?_of_spells {v : Json} {text : String} {s b : List Char} (h : Spells maxDepth (.value v) s) (hb : Blank b)
    (htext : text.toList = s ++ b) : read? text = some v := by
  have hend : Ends b := List.append_nil b ▸ Ends.blank hb (s := []) nofun
  have hread : readValue? (2 * text.toList.length + 2) maxDepth text.toList = some (v, b) := by
    rw [htext]
    exact h.read _ b (by simp; omega) hend
  have hrest : skipSpace b = [] := List.append_nil b ▸ skipSpace_append hb []
  unfold read?
  simp only [hread, hrest]
  rfl

end FlatSchema.Json
