import FlatSchema.Proofs.JsonText

/-!
# Numerals of integers

The reader of integers takes a plus sign and zeros in front. One of the texts that it takes for an integer is canonical, and this is
the text that is written of the integer (`Text.isCanonical_iff`).
-/

namespace FlatSchema.Text

open Json (toString_ofNat toString_negSucc toDigits_isDigit toDigits_eq_cons toDigits_ne_zero_cons)

/-! ## What is written is read -/

/-- The digits of a number are read back. -/
theorem readDigits?_toDigits (n : Nat) : readDigits? (Nat.toDigits 10 n) = some n := by
  have hdigits : (!(Nat.toDigits 10 n).isEmpty && (Nat.toDigits 10 n).all Char.isDigit) = true := by
    simpa [Nat.toDigits_ne_nil] using toDigits_isDigit n
  rw [readDigits?, if_pos hdigits, natOfDigits, Nat.ofDigitChars_ten_toDigits]

/-- A text that starts with a digit is read without a sign. -/
theorem readInt?_cons_of_isDigit {c : Char} (hc : c.isDigit = true) (s : List Char) :
    readInt? (c :: s) = (readDigits? (c :: s)).map fun n => (n : Int) := by
  unfold readInt?
  split
  next r heq =>
    cases heq
    cases hc
  next r heq =>
    cases heq
    cases hc
  next => rfl

/-- An integer is read back. -/
theorem readInt?_toString (v : Int) : readInt? (toString v).toList = some v := by
  cases v with
  | ofNat n =>
    obtain ⟨c, t, hd, hc⟩ := toDigits_eq_cons n
    rw [toString_ofNat, hd, readInt?_cons_of_isDigit hc, ← hd, readDigits?_toDigits]
    rfl
  | negSucc n =>
    rw [toString_negSucc, readInt?, readDigits?_toDigits]
    rfl

/-- An integer that fits into the bits is read back. -/
theorem readSigned?_toString {bits : Nat} {v : Int} (hlow : -Int.pow 2 (bits - 1) ≤ v) (hhigh : v ≤ Int.pow 2 (bits - 1) - 1) :
    readSigned? bits (toString v) = some v := by
  rw [readSigned?, readInt?_toString, Option.bind_some, within, if_pos ⟨hlow, hhigh⟩]

/-- Different integers are written differently. -/
theorem toString_inj {v w : Int} : toString v = toString w ↔ v = w := by
  constructor
  · intro h
    have hread := congrArg (fun s : String => readInt? s.toList) h
    simp only [readInt?_toString] at hread
    exact Option.some.inj hread
  · rintro rfl
    rfl

/-- What is read as an integer has digits and signs. -/
theorem readInt?_chars {s : List Char} {v : Int} (h : readInt? s = some v) :
    s ≠ [] ∧ ∀ c ∈ s, c.isDigit = true ∨ c = '-' ∨ c = '+' := by
  have hdigits : ∀ {t : List Char}, readDigits? t ≠ none → t ≠ [] ∧ ∀ c ∈ t, c.isDigit = true := by
    intro t ht
    unfold readDigits? at ht
    split at ht
    next hall => simpa using hall
    next => exact absurd rfl ht
  unfold readInt? at h
  split at h
  next t =>
    have ht := hdigits (t := t) fun hnone => by simp [hnone] at h
    simpa using fun c hc => Or.inl (ht.2 c hc)
  next t =>
    have ht := hdigits (t := t) fun hnone => by simp [hnone] at h
    simpa using fun c hc => Or.inl (ht.2 c hc)
  next =>
    have hs := hdigits (t := s) fun hnone => by simp [hnone] at h
    exact ⟨hs.1, fun c hc => .inl (hs.2 c hc)⟩

/-! ## Canonical numerals -/

/-- Whether a text is a numeral without a zero in front that could be left out. -/
def isCanonicalNat : List Char → Bool
  | [] => false
  | '0' :: ds => ds.isEmpty
  | c :: ds => c.isDigit && ds.all Char.isDigit

/-- Whether a text is a numeral of an integer without a plus sign, without zeros that could be left out, and without a sign at
zero. -/
def isCanonical : List Char → Bool
  | ['-', '0'] => false
  | '-' :: ds => isCanonicalNat ds
  | ds => isCanonicalNat ds

/-- A digit is the character of its own number. -/
theorem digitChar_of_isDigit {c : Char} (hc : c.isDigit = true) :
    c.toNat - '0'.toNat < 10 ∧ (c.toNat - '0'.toNat).digitChar = c := by
  have hrange := Char.isDigit_iff_toNat.1 hc
  have hchars : ∀ n < 10, n.digitChar = Char.ofNat (n + '0'.toNat) := by decide
  have hten : c.toNat - '0'.toNat < 10 := by
    have hnine : '9'.toNat = '0'.toNat + 9 := rfl
    omega
  refine ⟨hten, ?_⟩
  rw [hchars _ hten, Nat.sub_add_cancel hrange.1, Char.ofNat_toNat]

/-- Digits behind the digits of a number that is not zero. -/
theorem toDigits_append {ds : List Char} : ∀ {n : Nat}, 0 < n → (∀ c ∈ ds, c.isDigit = true) →
    Nat.toDigits 10 n ++ ds = Nat.toDigits 10 (Nat.ofDigitChars 10 ds n) := by
  induction ds with
  | nil =>
    intro n _ _
    simp
  | cons c ds ih =>
    intro n hn hds
    obtain ⟨hten, hchar⟩ := digitChar_of_isDigit (hds c List.mem_cons_self)
    have hfirst : Nat.toDigits 10 n ++ [c] = Nat.toDigits 10 (10 * n + (c.toNat - '0'.toNat)) := by
      rw [← Nat.toDigits_append_toDigits (by decide) hn hten, Nat.toDigits_of_lt_base hten, hchar]
    rw [Nat.ofDigitChars_cons, ← ih (by omega) fun d hd => hds d (List.mem_cons_of_mem c hd), ← hfirst, List.append_assoc,
      List.singleton_append]

/-- Digits without a zero in front are those of a number. -/
theorem eq_toDigits_of_isCanonicalNat {ds : List Char} (h : isCanonicalNat ds = true) : ds = Nat.toDigits 10 (natOfDigits ds) := by
  unfold isCanonicalNat at h
  split at h
  next => cases h
  next ds =>
    rw [List.isEmpty_iff] at h
    subst h
    rfl
  next c ds hzero =>
    obtain ⟨hc, hds⟩ := Bool.and_eq_true_iff.1 h
    obtain ⟨hten, hchar⟩ := digitChar_of_isDigit hc
    have hpos : 0 < c.toNat - '0'.toNat := by
      refine Nat.pos_of_ne_zero fun hz => ?_
      rw [hz] at hchar
      exact hzero hchar.symm
    have hfirst : [c] = Nat.toDigits 10 (c.toNat - '0'.toNat) := by rw [Nat.toDigits_of_lt_base hten, hchar]
    rw [natOfDigits, Nat.ofDigitChars_cons, Nat.mul_zero, Nat.zero_add, ← toDigits_append hpos (by simpa using hds), ← hfirst,
      List.singleton_append]

/-- The digits of a number have no zero in front. -/
theorem isCanonicalNat_toDigits (n : Nat) : isCanonicalNat (Nat.toDigits 10 n) = true := by
  obtain ⟨c, t, hd, hc⟩ := toDigits_eq_cons n
  have hdigits := toDigits_isDigit n
  rw [hd] at hdigits ⊢
  unfold isCanonicalNat
  split
  next heq => cases heq
  next ds heq =>
    cases heq
    by_cases hn : n = 0
    · subst hn
      cases hd
      rfl
    · exact absurd hd (toDigits_ne_zero_cons hn _)
  next heq =>
    cases heq
    simpa [hc] using fun d hd => hdigits d (List.mem_cons_of_mem _ hd)

/-- A canonical text is that of an integer. -/
theorem exists_toString_of_isCanonical {s : List Char} (h : isCanonical s = true) : ∃ v : Int, s = (toString v).toList := by
  unfold isCanonical at h
  split at h
  next => cases h
  next ds hzero =>
    have hds := eq_toDigits_of_isCanonicalNat h
    cases hn : natOfDigits ds with
    | zero =>
      rw [hn] at hds
      exact absurd hds hzero
    | succ n =>
      rw [hn] at hds
      exact ⟨.negSucc n, by rw [toString_negSucc, hds]⟩
  next => exact ⟨.ofNat (natOfDigits s), by rw [toString_ofNat, ← eq_toDigits_of_isCanonicalNat h]⟩

/-- An integer is written canonically. -/
theorem isCanonical_toString (v : Int) : isCanonical (toString v).toList = true := by
  cases v with
  | ofNat n =>
    obtain ⟨c, t, hd, hc⟩ := toDigits_eq_cons n
    have hcanonical := isCanonicalNat_toDigits n
    rw [toString_ofNat]
    rw [hd] at hcanonical ⊢
    unfold isCanonical
    split
    next heq =>
      cases heq
      cases hc
    next heq =>
      cases heq
      cases hc
    next => exact hcanonical
  | negSucc n =>
    have hcanonical := isCanonicalNat_toDigits (n + 1)
    rw [toString_negSucc]
    unfold isCanonical
    split
    next heq =>
      injection heq with _ hzero
      exact absurd hzero (toDigits_ne_zero_cons (Nat.succ_ne_zero n) [])
    next heq =>
      cases heq
      exact hcanonical
    next hminus => exact absurd rfl (hminus _)

/-- Of the texts that are read as an integer the canonical one is that which is written of it. -/
theorem isCanonical_iff {s : List Char} {v : Int} (h : readInt? s = some v) : isCanonical s = true ↔ s = (toString v).toList := by
  constructor
  · intro hs
    obtain ⟨w, rfl⟩ := exists_toString_of_isCanonical hs
    rw [readInt?_toString] at h
    rw [Option.some.inj h]
  · rintro rfl
    exact isCanonical_toString v

end FlatSchema.Text
