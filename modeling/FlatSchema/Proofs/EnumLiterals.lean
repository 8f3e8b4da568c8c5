import FlatSchema.Proofs.CodeShape
import FlatSchema.Proofs.Constants
import FlatSchema.Target.CSharpNames
import FlatSchema.Target.LuaModule

/-!
# Defaults of enum fields

The constant of an enum field is a text of a number. Python, C# and the schema language look for a member with this number, each in
a way of its own: with a sign in 64 or 128 bits, then without one, and for zero as a floating-point number. What they find is always
a member that is printed with the number of the constant (`Schema.ofDocument_enumDefaults`). Lua writes the number itself, with a
sign, while the members of an enum are printed as its integer type reads them, so that in the upper half of 64 bits without a sign
the two differ (`Schema.ofDocument_luaLiterals`).
-/

namespace FlatSchema

/-! ## Integers as floating-point numbers -/

namespace Double

/-- Rounding never goes below the quotient. -/
theorem div_le_roundDiv (num den : Nat) : num / den ≤ roundDiv num den := by
  unfold roundDiv
  dsimp only
  split
  next => exact Nat.le_refl _
  next => split <;> omega

/-- The exponent of a whole number is at most its highest bit. -/
theorem exponentFor_le (n : Nat) : exponentFor n 1 ≤ Nat.log2 n := by
  unfold exponentFor leastExponent
  dsimp only
  split <;> omega

/-- A natural number other than zero is at least the unit in which it is rounded. -/
theorem unscale_le {n : Nat} (hn : n ≠ 0) : 0 < (unscale n 1 (exponentFor n 1)).2 ∧
    (unscale n 1 (exponentFor n 1)).2 ≤ (unscale n 1 (exponentFor n 1)).1 := by
  have hexponent := exponentFor_le n
  unfold unscale
  split
  next hnonneg =>
    have hpow : Nat.pow 2 (exponentFor n 1).toNat ≤ n :=
      Nat.le_trans (Nat.pow_le_pow_right (by decide) (by omega)) (Nat.log2_self_le hn)
    have hpos : 0 < Nat.pow 2 (exponentFor n 1).toNat := Nat.pow_pos (by decide)
    dsimp only
    omega
  next hneg =>
    exact ⟨Nat.one_pos, Nat.mul_pos (Nat.pos_of_ne_zero hn) (Nat.pow_pos (by decide))⟩

/-- No whole number other than zero is rounded to zero. -/
theorem ofFraction_ne_zero {negative : Bool} {n : Nat} (hn : n ≠ 0) {d : Double} (h : ofFraction negative n 1 = some d) :
    d.significand ≠ 0 := by
  obtain ⟨hpos, hle⟩ := unscale_le hn
  have hround : roundDiv (unscale n 1 (exponentFor n 1)).1 (unscale n 1 (exponentFor n 1)).2 ≠ 0 :=
    Nat.ne_of_gt (Nat.lt_of_lt_of_le (Nat.div_pos hle hpos) (div_le_roundDiv _ _))
  have hhalf : Nat.pow 2 52 ≠ 0 := by decide
  rw [ofFraction, if_neg hn] at h
  extract_lets e at h
  change roundDiv (unscale n 1 e).1 (unscale n 1 e).2 ≠ 0 at hround
  split at h
  next num den hscaled =>
    rw [hscaled] at hround
    extract_lets m at h
    split at h
    next significand exponent hcarry =>
      split at h
      next => cases h
      next =>
        cases h
        -- the significand that rounding has carried to 54 bits is halved
        split at hcarry
        next =>
          cases hcarry
          exact hhalf
        next =>
          cases hcarry
          exact hround

/-- A whole number other than zero is not rounded to zero. -/
theorem ofDecimal_ne_zero {n : Decimal} (hexponent : 0 ≤ n.exponent) (hn : n.significand ≠ 0) {d : Double}
    (h : ofDecimal n = some d) : d.significand ≠ 0 := by
  have hplaces : ¬(n.significand = 0 ∨ ((Nat.toDigits 10 n.significand).length : Int) + n.exponent < -330) := by omega
  rw [ofDecimal, if_neg hplaces] at h
  split at h
  · cases h
  · exact ofFraction_ne_zero (Nat.mul_ne_zero hn (Nat.ne_of_gt (Nat.pow_pos (by decide)))) h

end Double

namespace Text

/-- A text without a sign is read as it is. -/
theorem readSign_of_unsigned {s : List Char} (hminus : ∀ ds, s ≠ '-' :: ds) (hplus : ∀ ds, s ≠ '+' :: ds) :
    Decimal.readSign s = (false, s) := by
  unfold Decimal.readSign
  split
  next ds => exact absurd rfl (hminus ds)
  next ds => exact absurd rfl (hplus ds)
  next => rfl

/-- An integer is a sign and the digits of its absolute value. -/
theorem readInt?_eq_some_iff {s : List Char} {v : Int} : readInt? s = some v ↔
    ∃ n : Nat, readDigits? (Decimal.readSign s).2 = some n ∧ v = if (Decimal.readSign s).1 then -(n : Int) else n := by
  unfold readInt?
  split
  next ds =>
    cases hds : readDigits? ds with
    | none => simp [Decimal.readSign, hds]
    | some n => simp [Decimal.readSign, hds, eq_comm]
  next ds =>
    cases hds : readDigits? ds with
    | none => simp [Decimal.readSign, hds]
    | some n => simp [Decimal.readSign, hds, eq_comm]
  next hminus hplus =>
    rw [readSign_of_unsigned hminus hplus]
    cases hds : readDigits? s with
    | none => simp
    | some n => simp [eq_comm]

/-- A number that is not negative is read by its digits. -/
theorem readNat?_eq {s : List Char} (h : (Decimal.readSign s).1 = false) : readNat? s = readDigits? (Decimal.readSign s).2 := by
  unfold readNat?
  split
  next ds => rfl
  next hplus =>
    rw [readSign_of_unsigned (fun ds hs => ?_) hplus]
    subst hs
    cases h

/-- A positive number is read as the same natural number. -/
theorem readNat?_of_readInt? {s : List Char} {v : Int} (h : readInt? s = some v) (hv : 0 < v) : readNat? s = some v.toNat := by
  obtain ⟨n, hdigits, hn⟩ := readInt?_eq_some_iff.1 h
  split at hn
  next => omega
  next hsign => rw [readNat?_eq (by simpa using hsign), hdigits, hn, Int.toNat_natCast]

end Text

/-- A text that denotes an integer denotes the same floating-point number. -/
theorem Numeral.read?_of_readInt? {s : List Char} {v : Int} (h : Text.readInt? s = some v) :
    ∃ negative, Numeral.read? s = some (.finite ⟨negative, v.natAbs, 0⟩) := by
  obtain ⟨n, hdigits, hv⟩ := Text.readInt?_eq_some_iff.1 h
  have hnat : v.natAbs = n := by
    split at hv <;> omega
  unfold Numeral.read?
  cases hsign : Decimal.readSign s with
  | mk negative ds =>
    rw [hsign] at hdigits
    unfold Text.readDigits? at hdigits
    split at hdigits
    next hds =>
      simp only [Bool.and_eq_true, Bool.not_eq_true', List.isEmpty_eq_false_iff, List.all_eq_true] at hds
      have hspan : ds.span Char.isDigit = (ds, []) := by
        rw [List.span_eq_takeWhile_dropWhile, List.takeWhile_eq_self_iff.2 hds.2, List.dropWhile_eq_nil_iff.2 hds.2]
      refine ⟨negative, ?_⟩
      dsimp only
      rw [hspan]
      have hread : Numeral.readFraction [] = ([], []) ∧ Decimal.readExponent? [] = some (0, []) := ⟨rfl, rfl⟩
      rw [hread.1, hread.2, if_neg (by simpa using hds.1), hnat, ← Option.some.inj hdigits]
      simp [Decimal.ofDigits, Text.natOfDigits]
    next => cases hdigits

/-- A constant that denotes an integer reads as zero exactly if the integer is zero. -/
theorem Fbs.readsAsZero_iff {constant : String} {v : Int} (h : Text.readInt? constant.toList = some v) :
    Fbs.readsAsZero constant = true ↔ v = 0 := by
  obtain ⟨negative, hread⟩ := Numeral.read?_of_readInt? h
  rw [Fbs.readsAsZero, hread, Option.bind_some, Numeral.toDouble?]
  constructor
  · intro hzero
    split at hzero
    next d hd =>
      refine Int.natAbs_eq_zero.1 (Classical.not_not.1 fun hv => ?_)
      exact Double.ofDecimal_ne_zero (Int.le_refl 0) hv hd (eq_of_beq hzero)
    next => cases hzero
  · rintro rfl
    rfl

/-! ## Constants in the 64 bits of an enum -/

/-- A number is read as one of 64 bits if it is one. -/
theorem readSigned?_64 {constant : String} {v : Int} (h : Text.readInt? constant.toList = some v) :
    readSigned? 64 constant = if IsInt64 v then some v else none := by
  have hiff : -Int.pow 2 63 ≤ v ∧ v ≤ Int.pow 2 63 - 1 ↔ IsInt64 v := and_congr_right fun _ => Int.le_sub_one_iff
  rw [readSigned?, h, Option.bind_some, within]
  exact if_congr hiff rfl rfl

namespace FieldDef.Denotes

variable {f : FieldDef} {v : Int}

/-- A default of the unsigned type of 64 bits is not negative. -/
theorem nonneg (h : f.Denotes v) (hulong : f.type.base = .ulong) : 0 ≤ v := by
  obtain ⟨bounds, hrange, hlow, _⟩ := h.inRange
  rw [hulong] at hrange
  cases hrange
  exact hlow

/-- A constant that 64 bits with a sign do not hold is a number of 64 bits without a sign, in the upper half. -/
theorem upper (h : f.Denotes v) (hv : ¬IsInt64 v) : f.type.base = .ulong ∧ Int.pow 2 63 ≤ v ∧ v < Int.pow 2 64 := by
  obtain ⟨bounds, hrange, hlow, hhigh⟩ := h.inRange
  have hulong : f.type.base = .ulong := Classical.not_not.1 fun hb => hv (BaseType.isInt64_of_range hb hrange hlow hhigh)
  rw [hulong] at hrange
  cases hrange
  refine ⟨hulong, Int.not_lt.1 fun hlt => hv ⟨?_, hlt⟩, Int.lt_of_le_sub_one hhigh⟩
  exact Int.le_trans (by decide) hlow

/-- A number that fits into 64 bits with a sign is compared with the members as it is. -/
theorem enumNumber?_of_isInt64 (h : f.Denotes v) (hv : IsInt64 v) :
    Python.enumNumber? f.constant = some v ∧ Fbs.enumNumber? f.constant = some v := by
  have hwide : -Int.pow 2 127 ≤ v ∧ v ≤ Int.pow 2 127 - 1 :=
    ⟨Int.le_trans (by decide) hv.1, Int.le_trans (Int.le_of_lt hv.2) (by decide)⟩
  rw [Python.enumNumber?, Fbs.enumNumber?, readSigned?_64 h.read, if_pos hv, readSigned?, h.read, Option.bind_some, within,
    if_pos hwide, Option.bind_some]
  exact ⟨if_pos hv, rfl⟩

/-- A number that does not fit is compared by its bits. -/
theorem enumNumber?_of_not_isInt64 (h : f.Denotes v) (hv : ¬IsInt64 v) :
    Python.enumNumber? f.constant = some (signed64 v.toNat) ∧ Fbs.enumNumber? f.constant = some (signed64 v.toNat) := by
  obtain ⟨_, hlow, hhigh⟩ := h.upper hv
  have hpos : 0 < v := Int.lt_of_lt_of_le (by decide) hlow
  have hwide : -Int.pow 2 127 ≤ v ∧ v ≤ Int.pow 2 127 - 1 :=
    ⟨Int.le_trans (by decide) hlow, Int.le_trans (Int.le_of_lt hhigh) (by decide)⟩
  have hlt : v.toNat < Nat.pow 2 64 := (Int.toNat_lt (Int.le_of_lt hpos)).2 hhigh
  rw [Python.enumNumber?, Fbs.enumNumber?, readSigned?_64 h.read, if_neg hv, readSigned?, h.read, Option.bind_some, within,
    if_pos hwide, Option.bind_some, readUnsigned?, Text.readNat?_of_readInt? h.read hpos, Option.bind_some, if_pos hlt]
  exact ⟨(if_neg hv).trans (if_pos ⟨Int.le_of_lt hpos, hhigh⟩), rfl⟩

/-- The value that stands for a constant in the 64 bits of an enum, which the type of the field reads as the constant. -/
theorem enumNumber? (h : f.Denotes v) : ∃ w, IsInt64 w ∧ f.type.base.reading w = v ∧ (IsInt64 v → w = v) ∧
    Python.enumNumber? f.constant = some w ∧ Fbs.enumNumber? f.constant = some w := by
  by_cases hv : IsInt64 v
  · exact ⟨v, hv, BaseType.reading_of_nonneg hv h.nonneg, fun _ => rfl, h.enumNumber?_of_isInt64 hv⟩
  · obtain ⟨hulong, hlow, hhigh⟩ := h.upper hv
    have hlt : v.toNat < Nat.pow 2 64 := (Int.toNat_lt (h.nonneg hulong)).2 hhigh
    refine ⟨signed64 v.toNat, ?_, ?_, fun hv' => absurd hv' hv, h.enumNumber?_of_not_isInt64 hv⟩
    · rw [signed64_eq_toInt]
      exact isInt64_toInt _
    · rw [hulong, BaseType.reading, if_pos rfl, unsigned64_signed64, Nat.mod_eq_of_lt hlt, Int.toNat_of_nonneg (h.nonneg hulong)]

end FieldDef.Denotes

/-! ## Members in place of numbers -/

/-- How a default is written that denotes a number: as a member of the enum that is printed with this number, or, if the default is
not looked up or no member has the number, as a literal that is no spelling of a member. -/
def EnumDef.Spelled (e : EnumDef) (v : Int) (spelling : EnumVal → String) (literal : String) (skipped : Prop) (text : String) :
    Prop :=
  (¬skipped ∧ ∃ m ∈ e.vals, text = spelling m ∧ Text.readInt? (e.valueText m.value).toList = some v) ∨
  (text = literal ∧ (∀ m ∈ e.vals, spelling m ≠ literal) ∧
    (skipped ∨ ∀ m ∈ e.vals, IsInt64 m.value → Text.readInt? (e.valueText m.value).toList ≠ some v))

namespace EnumDef

variable {e : EnumDef} {v w : Int} {spelling : EnumVal → String} {literal : String}

/-- The member that is found by the value that stands for a number is printed with this number. -/
theorem spelled_withValue? (hw : IsInt64 w) (hreading : e.underlying.base.reading w = v)
    (hliteral : ∀ m ∈ e.vals, spelling m ≠ literal) {skipped : Prop} (hskipped : ¬skipped) :
    e.Spelled v spelling literal skipped (match e.withValue? w with | some m => spelling m | none => literal) := by
  cases hfound : e.withValue? w with
  | some m =>
    have hvalue : m.value = w := by simpa using List.find?_some hfound
    exact .inl ⟨hskipped, m, List.mem_of_find?_eq_some hfound, rfl, by rw [readInt?_valueText, hvalue, hreading]⟩
  | none =>
    refine .inr ⟨rfl, hliteral, .inr fun m hm hint hprinted => ?_⟩
    rw [readInt?_valueText, Option.some.injEq, ← hreading, BaseType.reading_inj hint hw] at hprinted
    exact absurd hprinted (by simpa using List.find?_eq_none.1 hfound m hm)

end EnumDef

section

variable {env : Env} {e : EnumDef} {f : FieldDef} {v : Int}

/-- The default is a member of its number if there is one, and else the number. -/
theorem Python.enumDefault_spelled (h : f.Denotes v) (hbase : f.type.base = e.underlying.base) (cls : String) :
    e.Spelled v (fun m => s!"{cls}.{env.namer.variant m.name}") f.constant False (Python.enumDefault env e cls f) := by
  obtain ⟨w, hw, hreading, _, hpython, _⟩ := h.enumNumber?
  have hliteral : ∀ m ∈ e.vals, s!"{cls}.{env.namer.variant m.name}" ≠ f.constant := by
    intro m _ heq
    have heq : cls ++ "." ++ env.namer.variant m.name = f.constant := heq
    have hdot : '.' ∈ f.constant.toList := by simp [← heq]
    exact absurd ((Text.readInt?_chars h.read).2 '.' hdot) (by decide)
  rw [Python.enumDefault, hpython, Option.bind_some]
  exact EnumDef.spelled_withValue? hw (hbase ▸ hreading) hliteral id

/-- A name with a member behind a point is not the name in brackets with something behind it. -/
theorem CSharp.member_ne_cast (name member constant : String) : s!"{name}.{member}" ≠ s!"({name}){constant}" := by
  intro h
  have h : name ++ "." ++ member = "(" ++ name ++ ")" ++ constant := h
  have hlists : (name.toList ++ ['.']) ++ member.toList = ('(' :: name.toList) ++ (')' :: constant.toList) := by
    simpa using congrArg String.toList h
  have hfront := (List.append_inj hlists (by simp)).1
  have hcount := congrArg (List.count '.') hfront
  simp at hcount

/-- The default is a member of its number if there is one, and else a cast of the number. Flags, and numbers above the signed range,
are always cast. -/
theorem CSharp.defaultValue_spelled (h : f.Denotes v) (he : env.schema.scalarEnum? f.type = some e)
    (hbase : f.type.base = e.underlying.base) :
    e.Spelled v (fun m => s!"{CSharp.enumName env e}.{env.namer.variant m.name}") s!"({CSharp.enumName env e}){f.constant}"
      (e.isBitFlags = true ∨ ¬IsInt64 v) (CSharp.defaultValue env f) := by
  have hliteral : ∀ m ∈ e.vals,
      s!"{CSharp.enumName env e}.{env.namer.variant m.name}" ≠ s!"({CSharp.enumName env e}){f.constant}" :=
    fun m _ => CSharp.member_ne_cast _ _ _
  obtain ⟨w, hw, hreading, hsame, _⟩ := h.enumNumber?
  rw [CSharp.defaultValue, he, readSigned?_64 h.read]
  dsimp only
  by_cases hskipped : e.isBitFlags = true ∨ ¬IsInt64 v
  · refine .inr ⟨?_, hliteral, .inl hskipped⟩
    rcases hskipped with hflags | hv
    · rw [if_pos hflags]
    · rw [if_neg hv, Option.bind_none, ite_self]
  · obtain ⟨hflags, hv⟩ := not_or.1 hskipped
    have hv := Classical.not_not.1 hv
    obtain rfl := hsame hv
    rw [if_neg hflags, if_pos hv, Option.bind_some]
    exact EnumDef.spelled_withValue? hw (hbase ▸ hreading) hliteral hskipped

/-- The default of an enum is written by the name of the member, or by its number, and zero is left out. -/
theorem Fbs.default?_of_isEnum (henum : f.type.isEnum = true) (hbool : f.type.base ≠ .bool)
    (he : env.schema.enumOf? f.type = some e) : Fbs.default? env f = .ok (if Fbs.readsAsZero f.constant then none
      else some (match (Fbs.enumNumber? f.constant).bind e.withValue? with | some m => m.name | none => f.constant)) := by
  have hint : f.type.base.isInteger = true := (Bool.and_eq_true_iff.1 (Bool.and_eq_true_iff.1 henum).1).2
  unfold Fbs.default?
  dsimp only
  rw [TypeDesc.isScalar_of_isInteger hint, henum, if_neg hbool, if_pos rfl, Env.enumOf_eq_ok.2 he]
  cases Fbs.readsAsZero f.constant with
  | true => rfl
  | false =>
    rw [if_neg (by decide), if_neg Bool.false_ne_true]
    dsimp only [bind, Except.bind]
    cases (Fbs.enumNumber? f.constant).bind e.withValue? <;> rfl

/-- The default is a member of its number if there is one, and else the number. It is left out if it is zero. -/
theorem Fbs.default?_spelled (h : f.Denotes v) (henum : f.type.isEnum = true) (hbool : f.type.base ≠ .bool)
    (he : env.schema.enumOf? f.type = some e) (hbase : f.type.base = e.underlying.base)
    (hnames : ∀ m ∈ e.vals, isIdentifier m.name = true) : ∃ text?, Fbs.default? env f = .ok text? ∧ (text? = none ↔ v = 0) ∧
      ∀ text, text? = some text → e.Spelled v (·.name) f.constant False text := by
  obtain ⟨w, hw, hreading, _, _, hfbs⟩ := h.enumNumber?
  have hliteral : ∀ m ∈ e.vals, m.name ≠ f.constant := by
    intro m hm heq
    have hnone := readInt?_of_isIdentifier (hnames m hm)
    rw [heq, h.read] at hnone
    cases hnone
  refine ⟨_, Fbs.default?_of_isEnum henum hbool he, ?_, ?_⟩
  · rw [← Fbs.readsAsZero_iff h.read]
    simp
  · intro text htext
    split at htext
    next => cases htext
    next =>
      rw [hfbs, Option.bind_some] at htext
      rw [← Option.some.inj htext]
      exact EnumDef.spelled_withValue? hw (hbase ▸ hreading) hliteral id

end

/-! ## Enum fields in a schema -/

/-- A field takes its values from an enum, and its constant denotes a number of the type of the enum. -/
structure FieldDef.Enumerated (s : Schema) (f : FieldDef) (e : EnumDef) (v : Int) : Prop where
  enum : s.enumOf? f.type = some e
  mem : e ∈ s.enums
  base : f.type.base = e.underlying.base
  integer : f.type.base.isInteger = true
  notBool : f.type.base ≠ .bool
  names : ∀ m ∈ e.vals, isIdentifier m.name = true
  denotes : f.Denotes v

/-- A field of an enum type has an enum, and its default denotes a number. -/
theorem Loaded.enumerated {doc : SchemaDoc} {names : NameTable} {declared : List StructDef} {s : Schema}
    (h : Loaded doc names declared s) {d : StructDef} (hd : d ∈ s.structs) {f : FieldDef} (hf : f ∈ d.fields)
    (henum : f.type.isEnum = true) : ∃ e v, f.Enumerated s e v := by
  simp only [TypeDesc.isEnum, Bool.and_eq_true, bne_iff_ne] at henum
  obtain ⟨⟨href, hint⟩, hutype⟩ := henum
  obtain ⟨i, hi⟩ := Option.isSome_iff_exists.1 href
  obtain ⟨e, he, _, _, hbool, hbase⟩ :=
    (h.held hd hf).wellFormed.1.enumeration (TypeDesc.isScalar_of_isInteger hint) hutype i hi
  have hnames := (Validity.checkNames_eq_ok.1 (Schema.validate_eq_ok.1 h.valid).1).2.2.1
  obtain ⟨k, hk⟩ := List.mem_iff_getElem?.1 hd
  obtain ⟨sd, _, hgives⟩ := h.declared_gives hk
  have hdisc : f.isDiscriminant = false := by
    rw [Bool.eq_false_iff, ne_eq, FieldDef.isDiscriminant, TypeDesc.isDiscriminant_iff]
    rintro (hb | ⟨hb, _⟩)
    · exact hutype hb
    · rw [hb] at hint
      cases hint
  obtain ⟨decl, hdecl⟩ := exists_of_mem_forall₂ hgives (List.mem_filter.2 ⟨hf, by simp [hdisc]⟩)
  obtain ⟨v, hv⟩ := (hdecl.denotes hnames hint).1
  have hmem := List.mem_of_getElem? he
  refine ⟨e, v, ?_, hmem, hbase, hint, hbool, hnames e hmem, hv⟩
  rw [Schema.enumOf?, hi]
  exact he

/-- The constant of an enum field of a loaded schema denotes a number. Where Python, C# or the schema language writes the default of
the field as a member of the enum, the member is printed with this number; else the literal stands, which is no spelling of a
member. Python and the schema language look up every constant, C# none of bit flags and none beyond 64 bits with a sign. The schema
language leaves out the default exactly if it is zero. -/
theorem Schema.ofDocument_enumDefaults {doc : SchemaDoc} {env : Env} (h : Schema.ofDocument doc = .ok env.schema) {d : StructDef}
    (hd : d ∈ env.schema.structs) {f : FieldDef} (hf : f ∈ d.fields) (henum : f.type.isEnum = true) :
    ∃ e v, env.schema.enumOf? f.type = some e ∧ f.Denotes v ∧
      (∀ cls, e.Spelled v (fun m => s!"{cls}.{env.namer.variant m.name}") f.constant False (Python.enumDefault env e cls f)) ∧
      e.Spelled v (fun m => s!"{CSharp.enumName env e}.{env.namer.variant m.name}") s!"({CSharp.enumName env e}){f.constant}"
        (e.isBitFlags = true ∨ ¬IsInt64 v) (CSharp.defaultValue env f) ∧
      ∃ text?, Fbs.default? env f = .ok text? ∧ (text? = none ↔ v = 0) ∧
        ∀ text, text? = some text → e.Spelled v (·.name) f.constant False text := by
  obtain ⟨names, declared, hloaded⟩ := Schema.ofDocument_loaded h
  obtain ⟨e, v, hfield⟩ := hloaded.enumerated hd hf henum
  have hscalarEnum : env.schema.scalarEnum? f.type = some e := by
    rw [Schema.scalarEnum?, if_pos (TypeDesc.isScalar_of_isInteger hfield.integer), hfield.enum]
  exact ⟨e, v, hfield.enum, hfield.denotes, Python.enumDefault_spelled hfield.denotes hfield.base,
    CSharp.defaultValue_spelled hfield.denotes hscalarEnum hfield.base,
    Fbs.default?_spelled hfield.denotes henum hfield.notBool hfield.enum hfield.base hfield.names⟩

/-- An enum of 64 bits without a sign that has a number in each half of the range, and a field for each of them as the default. -/
def halvesDoc : SchemaDoc where
  enums := [{ name := "E", underlying := some "ulong", values := [
    { name := "Lower", value := some 9223372036854775806 }, { name := "Upper", value := some (-1) }] }]
  structs := [{ name := "T", fields := [
    { name := "lower", type := "E", default := some (.string "Lower") },
    { name := "upper", type := "E", default := some (.number (.int 18446744073709551615)) }] }]

/-- The enum of `halvesDoc`. -/
def halvesEnum : EnumDef where
  name := "E"
  underlying := .plain .ulong
  vals := [{ name := "Lower", value := 9223372036854775806 }, { name := "Upper", value := -1 }]

/-- The document loads, with both fields of the unsigned type of 64 bits. -/
theorem halvesDoc_loaded : ∃ s d lower upper, Schema.ofDocument halvesDoc = .ok s ∧ s.structs = [d] ∧ d.fields = [lower, upper] ∧
    (∀ f ∈ d.fields, f.type = .enumeration .ulong 0 ∧ s.enumOf? f.type = some halvesEnum) ∧
    lower.constant = "9223372036854775806" ∧ upper.constant = "18446744073709551615" := by
  obtain ⟨s, hs, hlook⟩ := Schema.exists_ofDocument halvesDoc
    (fun s => (s.enums, s.structs.map fun d => d.fields.map fun f => (f.type, f.constant)))
    ([halvesEnum], [[(.enumeration .ulong 0, "9223372036854775806"), (.enumeration .ulong 0, "18446744073709551615")]])
    (by decide +kernel)
  obtain ⟨henums, hstructs⟩ := Prod.mk.inj hlook
  obtain ⟨d, hd, hfields⟩ := List.map_eq_singleton_iff.1 hstructs
  obtain ⟨lower, rest, hf, hlower, hrest⟩ := List.map_eq_cons_iff.1 hfields
  obtain ⟨upper, rfl, hupper⟩ := List.map_eq_singleton_iff.1 hrest
  obtain ⟨hlowerType, hlower⟩ := Prod.mk.inj hlower
  obtain ⟨hupperType, hupper⟩ := Prod.mk.inj hupper
  refine ⟨s, d, lower, upper, hs, hd, hf, fun f hmem => ?_, hlower, hupper⟩
  have htype : f.type = .enumeration .ulong 0 := by
    rw [hf] at hmem
    rcases List.mem_cons.1 hmem with rfl | hmem
    · exact hlowerType
    · rwa [List.mem_singleton.1 hmem]
  exact ⟨htype, by rw [htype, Schema.enumOf?, henums]; rfl⟩

/-- The upper half of the unsigned range: the default is a member in one language, and a cast in another. -/
theorem halvesDoc_enumDefaults : ∃ (env : Env) (d : StructDef) (lower upper : FieldDef),
    Schema.ofDocument halvesDoc = .ok env.schema ∧ env.schema.structs = [d] ∧ d.fields = [lower, upper] ∧
    (∃ m ∈ halvesEnum.vals, Text.readInt? (halvesEnum.valueText m.value).toList = some 18446744073709551615 ∧
      Python.enumDefault env halvesEnum "E" upper = s!"E.{env.namer.variant m.name}") ∧
    CSharp.defaultValue env upper = s!"({CSharp.enumName env halvesEnum}){upper.constant}" ∧
    Fbs.default? env upper ≠ .ok none := by
  obtain ⟨s, d, lower, upper, hs, hd, hf, htypes, _, hconstant⟩ := halvesDoc_loaded
  have hmem : upper ∈ d.fields := by simp [hf]
  obtain ⟨htype, he⟩ := htypes upper hmem
  let env : Env := { schema := s, options := {}, namer := Python.namer {} }
  have henv : Schema.ofDocument halvesDoc = .ok env.schema := hs
  obtain ⟨e, v, he', hv, hpython, hcsharp, text?, htext, hzero, _⟩ :=
    Schema.ofDocument_enumDefaults henv (hd ▸ List.mem_cons_self) hmem (by rw [htype]; rfl)
  obtain rfl : halvesEnum = e := Option.some.inj (he.symm.trans he')
  obtain rfl : 18446744073709551615 = v := by
    have hread := hv.read
    rw [hconstant] at hread
    exact Option.some.inj hread
  refine ⟨env, d, lower, upper, hs, hd, hf, ?_, ?_, ?_⟩
  · rcases hpython "E" with ⟨_, m, hm, htext, hprinted⟩ | ⟨_, _, hnone⟩
    · exact ⟨m, hm, hprinted, htext⟩
    · rcases hnone with hfalse | hnone
      · exact hfalse.elim
      · exact absurd rfl (hnone { name := "Upper", value := -1 } (by decide) (by decide))
  · rcases hcsharp with ⟨hskipped, _⟩ | ⟨htext, _⟩
    · exact absurd (.inr (by decide)) hskipped
    · exact htext
  · intro hnone
    rw [htext] at hnone
    exact absurd (hzero.1 (Except.ok.inj hnone)) (by decide)

/-! ## Literals in Lua -/

namespace Lua

variable {f : FieldDef}

/-- A default of the unsigned type of 64 bits is written as the signed number of the same bits. -/
theorem defaultLiteral_of_ulong (hulong : f.type.base = .ulong) {n : Nat} (hconstant : f.constant = toString n)
    (hn : n < Nat.pow 2 64) : defaultLiteral f = toString (signed64 n) := by
  rw [defaultLiteral, hulong]
  dsimp only
  rw [hconstant, TypeExpr.readUnsigned?_toString hn]

/-- Every other integer default is written as it is. -/
theorem defaultLiteral_of_isInteger (hint : f.type.base.isInteger = true) (hbool : f.type.base ≠ .bool)
    (hulong : f.type.base ≠ .ulong) : defaultLiteral f = f.constant := by
  unfold defaultLiteral
  split
  next hb => exact absurd hb hbool
  next hb =>
    rw [hb] at hint
    cases hint
  next hb =>
    rw [hb] at hint
    cases hint
  next hb => exact absurd hb hulong
  next => exact if_pos (TypeDesc.isScalar_of_isInteger hint)

/-- The literal of a default that is written canonically is the value of a member with its sign, if the number is that of the
member. -/
theorem defaultLiteral_eq {s : Schema} {e : EnumDef} {v : Int} (hf : f.Enumerated s e v)
    (hcanonical : Text.isCanonical f.constant.toList = true) {m : EnumVal} (hm : IsInt64 m.value)
    (hv : v = e.underlying.base.reading m.value) : defaultLiteral f = toString m.value := by
  have hconstant : f.constant = toString v := String.toList_inj.1 ((Text.isCanonical_iff hf.denotes.read).1 hcanonical)
  by_cases hulong : f.type.base = .ulong
  · have hlt : unsigned64 m.value < Nat.pow 2 64 := by
      rw [unsigned64_eq_toNat]
      exact BitVec.isLt _
    rw [hv, ← hf.base, hulong, BaseType.reading, if_pos rfl] at hconstant
    rw [defaultLiteral_of_ulong hulong hconstant hlt, signed64_unsigned64 hm]
  · rw [hv, ← hf.base, BaseType.reading, if_neg hulong] at hconstant
    rw [defaultLiteral_of_isInteger hf.integer hf.notBool hulong, hconstant]

/-- Every member has its line. -/
theorem mem_enumCode {e : EnumDef} {m : EnumVal} (hm : m ∈ e.vals) (env : Env) :
    Step.line (s!"{env.namer.variant m.name} = {e.valueText m.value}," : String) ∈ enumCode env e := by
  refine List.mem_append_left _ (List.mem_append_left _ (List.mem_append_right _ (Code.mem_braced ?_)))
  exact List.mem_flatMap.2 ⟨m, hm, List.mem_append_right _ (List.mem_singleton.2 rfl)⟩

end Lua

/-- In Lua the default of an enum field of a loaded schema, if it is written canonically and is the number of a member, is the value
of the member with its sign. The module of the enum has a line for the member with the number as it is printed. The two literals are
the same exactly if the enum has another type than 64 bits without a sign, or the value is not negative. -/
theorem Schema.ofDocument_luaLiterals {doc : SchemaDoc} {env : Env} (h : Schema.ofDocument doc = .ok env.schema)
    {d : StructDef} (hd : d ∈ env.schema.structs) {f : FieldDef} (hf : f ∈ d.fields)
    (henum : f.type.isEnum = true) {e : EnumDef} (he : env.schema.enumOf? f.type = some e)
    (hcanonical : Text.isCanonical f.constant.toList = true) {m : EnumVal} (hm : m ∈ e.vals)
    (hread : Text.readInt? f.constant.toList = some (e.underlying.base.reading m.value)) :
    Lua.defaultLiteral f = toString m.value ∧
    Step.line (s!"{env.namer.variant m.name} = {e.valueText m.value}," : String) ∈ Lua.enumCode env e ∧
    (Lua.defaultLiteral f = e.valueText m.value ↔ (e.underlying.base = .ulong → 0 ≤ m.value)) := by
  obtain ⟨names, declared, hloaded⟩ := Schema.ofDocument_loaded h
  obtain ⟨e', v, hfield⟩ := hloaded.enumerated hd hf henum
  obtain rfl : e = e' := Option.some.inj (he.symm.trans hfield.enum)
  have hv : v = e.underlying.base.reading m.value := Option.some.inj (hfield.denotes.read.symm.trans hread)
  have hint64 : IsInt64 m.value := hloaded.enum_isInt64 hfield.mem m hm
  have hliteral := Lua.defaultLiteral_eq hfield hcanonical hint64 hv
  refine ⟨hliteral, Lua.mem_enumCode hm env, ?_⟩
  rw [hliteral, eq_comm]
  exact EnumDef.valueText_eq_toString_iff hint64

theorem halvesDoc_lower_luaLiterals : ∃ (env : Env) (d : StructDef) (lower upper : FieldDef),
    Schema.ofDocument halvesDoc = .ok env.schema ∧ env.schema.structs = [d] ∧ d.fields = [lower, upper] ∧
    lower.constant = "9223372036854775806" ∧ ∃ m ∈ halvesEnum.vals, Lua.defaultLiteral lower = halvesEnum.valueText m.value := by
  obtain ⟨s, d, lower, upper, hs, hd, hf, htypes, hconstant, _⟩ := halvesDoc_loaded
  have hmem : lower ∈ d.fields := by simp [hf]
  obtain ⟨htype, he⟩ := htypes lower hmem
  let env : Env := { schema := s, options := {}, namer := Lua.namer {} }
  have henv : Schema.ofDocument halvesDoc = .ok env.schema := hs
  have hm : { name := "Lower", value := 9223372036854775806 } ∈ halvesEnum.vals := by decide
  obtain ⟨_, _, hiff⟩ := Schema.ofDocument_luaLiterals henv (hd ▸ List.mem_cons_self) hmem
    (by rw [htype]; rfl) he (by rw [hconstant]; decide) hm (by rw [hconstant]; decide)
  exact ⟨env, d, lower, upper, hs, hd, hf, hconstant, _, hm, hiff.2 (by decide)⟩

/-- A default in the upper half is the number with a sign, while the member with this number is printed without one. -/
theorem halvesDoc_upper_luaLiterals : ∃ s d lower upper,
    Schema.ofDocument halvesDoc = .ok s ∧ s.structs = [d] ∧ d.fields = [lower, upper] ∧ upper.type.isEnum = true ∧
    s.enumOf? upper.type = some halvesEnum ∧ Text.isCanonical upper.constant.toList = true ∧
    ∃ m ∈ halvesEnum.vals, Text.readInt? upper.constant.toList = some (halvesEnum.underlying.base.reading m.value) ∧
      (Lua.defaultLiteral upper, halvesEnum.valueText m.value) = ("-1", "18446744073709551615") := by
  obtain ⟨s, d, lower, upper, hs, hd, hf, htypes, _, hconstant⟩ := halvesDoc_loaded
  obtain ⟨htype, he⟩ := htypes upper (by simp [hf])
  have hliteral : Lua.defaultLiteral upper = "-1" :=
    Lua.defaultLiteral_of_ulong (n := 18446744073709551615) (by rw [htype]; rfl) hconstant (by decide)
  refine ⟨s, d, lower, upper, hs, hd, hf, by rw [htype]; rfl, he, by rw [hconstant]; decide, ?_⟩
  refine ⟨{ name := "Upper", value := -1 }, by decide, by rw [hconstant]; decide, ?_⟩
  rw [hliteral]
  decide

end FlatSchema
