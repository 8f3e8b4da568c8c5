import FlatSchema.Text.Integer

/-!
# Numbers of 64 bits

A number with a sign and 64 bits, the same bits read without a sign, and how both are read from a vector of bits.
-/

namespace FlatSchema

/-- A number has a sign and 64 bits. -/
def IsInt64 (v : Int) : Prop := -Int.pow 2 63 ≤ v ∧ v < Int.pow 2 63

instance (v : Int) : Decidable (IsInt64 v) := inferInstanceAs (Decidable (_ ∧ _))

theorem isInt64_iff {v : Int} : IsInt64 v ↔ -9223372036854775808 ≤ v ∧ v < 9223372036854775808 := Iff.rfl

theorem isInt64_toInt (x : BitVec 64) : IsInt64 x.toInt := ⟨BitVec.le_toInt x, BitVec.toInt_lt⟩

/-- A number in the range of 64 bits is not changed by them. -/
theorem IsInt64.toInt_ofInt {v : Int} (h : IsInt64 v) : (Int64.ofInt v).toInt = v := Int64.toInt_ofInt_of_le h.1 h.2

/-- The unsigned reading is the natural number of the bits. -/
theorem unsigned64_eq_toNat (v : Int) : unsigned64 v = (BitVec.ofInt 64 v).toNat := (BitVec.toNat_ofInt v).symm

/-- A number that is not negative is read as itself. -/
theorem unsigned64_of_nonneg {v : Int} (hv : IsInt64 v) (hnonneg : 0 ≤ v) : (unsigned64 v : Int) = v := by
  have hlt : v < Int.pow 2 64 := Int.lt_trans hv.2 (by decide)
  rw [unsigned64, Int.emod_eq_of_lt hnonneg hlt, Int.toNat_of_nonneg hnonneg]

/-- A negative number is read as the one that is larger by two to the power of 64. -/
theorem unsigned64_of_neg {v : Int} (hv : IsInt64 v) (hneg : v < 0) : (unsigned64 v : Int) = v + 18446744073709551616 := by
  have hwidth : Int.pow 2 64 = 18446744073709551616 := rfl
  rw [isInt64_iff] at hv
  rw [unsigned64, hwidth]
  omega

/-- Different numbers have different unsigned readings. -/
theorem unsigned64_inj {v w : Int} (hv : IsInt64 v) (hw : IsInt64 w) : unsigned64 v = unsigned64 w ↔ v = w := by
  constructor
  · intro h
    rw [unsigned64_eq_toNat, unsigned64_eq_toNat] at h
    have hbits := congrArg BitVec.toInt (BitVec.eq_of_toNat_eq h)
    rwa [BitVec.toInt_ofInt_eq_self (by decide) hv.1 hv.2, BitVec.toInt_ofInt_eq_self (by decide) hw.1 hw.2] at hbits
  · rintro rfl
    rfl

/-- The signed reading is the integer of the bits. -/
theorem signed64_eq_toInt (n : Nat) : signed64 n = (BitVec.ofNat 64 n).toInt := by
  have hhalf : n % Nat.pow 2 64 < Nat.pow 2 63 ↔ 2 * (n % Nat.pow 2 64) < Nat.pow 2 64 := by
    have hpow : Nat.pow 2 64 = 2 * Nat.pow 2 63 := by decide
    omega
  rw [BitVec.toInt_eq_toNat_cond, BitVec.toNat_ofNat]
  exact ite_congr (propext hhalf) (fun _ => rfl) fun _ => rfl

/-- Signed and back: what remains is the number within 64 bits. -/
theorem unsigned64_signed64 (n : Nat) : unsigned64 (signed64 n) = n % Nat.pow 2 64 := by
  rw [unsigned64_eq_toNat, signed64_eq_toInt, BitVec.ofInt_toInt]
  exact BitVec.toNat_ofNat n 64

/-- Unsigned and back: a number of 64 bits remains. -/
theorem signed64_unsigned64 {v : Int} (hv : IsInt64 v) : signed64 (unsigned64 v) = v := by
  rw [signed64_eq_toInt, unsigned64_eq_toNat, BitVec.ofNat_toNat, BitVec.setWidth_eq,
    BitVec.toInt_ofInt_eq_self (by decide) hv.1 hv.2]

/-- Taking numbers together is taking their bits together. -/
theorem or64_eq_toInt (a b : Int) : or64 a b = (BitVec.ofInt 64 a ||| BitVec.ofInt 64 b).toInt := by
  rw [or64, signed64_eq_toInt, unsigned64_eq_toNat, unsigned64_eq_toNat, ← BitVec.toNat_or, BitVec.ofNat_toNat,
    BitVec.setWidth_eq]

/-- The numbers of some bits with a sign are closed under the bitwise or. -/
theorem signed_or {n : Nat} (hpos : 0 < n) (hn : n ≤ 64) {x y : BitVec 64}
    (hx : -Int.pow 2 (n - 1) ≤ x.toInt ∧ x.toInt < Int.pow 2 (n - 1))
    (hy : -Int.pow 2 (n - 1) ≤ y.toInt ∧ y.toInt < Int.pow 2 (n - 1)) :
    -Int.pow 2 (n - 1) ≤ (x ||| y).toInt ∧ (x ||| y).toInt < Int.pow 2 (n - 1) := by
  have hextend : ∀ {z : BitVec 64}, -Int.pow 2 (n - 1) ≤ z.toInt ∧ z.toInt < Int.pow 2 (n - 1) →
      (BitVec.ofInt n z.toInt).signExtend 64 = z := by
    intro z hz
    refine BitVec.eq_of_toInt_eq ?_
    rw [BitVec.toInt_signExtend_of_le hn, BitVec.toInt_ofInt_eq_self hpos hz.1 hz.2]
  rw [← hextend hx, ← hextend hy, ← BitVec.signExtend_or, BitVec.toInt_signExtend_of_le hn]
  exact ⟨BitVec.le_toInt _, BitVec.toInt_lt⟩

/-- Two numbers that are not negative have no sign together. -/
theorem nonneg_or {x y : BitVec 64} (hx : 0 ≤ x.toInt) (hy : 0 ≤ y.toInt) : 0 ≤ (x ||| y).toInt := by
  have hmsb : ∀ {z : BitVec 64}, 0 ≤ z.toInt ↔ z.msb = false := by
    intro z
    rw [BitVec.msb_eq_toInt, decide_eq_false_iff_not, Int.not_lt]
  rw [hmsb] at hx hy ⊢
  rw [BitVec.msb_or, hx, hy]
  rfl

end FlatSchema
