import FlatSchema.Proofs.Int64
import FlatSchema.Proofs.Names
import FlatSchema.Proofs.UnionMembers

/-!
# The values of enums

Members without a number follow the one before. If the numbers fit the type of an enum, the enum is accepted with exactly these
values, unless one of them is the greatest number of 64 bits with a sign: the number after it is asked for at once, also where no
member needs it, and there is none (`Resolve.enum_accepted_iff`).
-/

namespace FlatSchema

/-! ## Numbers that fit a type -/

namespace BaseType

/-- A value of a member as a number of an integer type: 64 bits without a sign are the bits of the value. -/
def reading (b : BaseType) (v : Int) : Int := if b = .ulong then unsigned64 v else v

/-- A value of 64 bits is a number of an integer type. -/
def Admits (b : BaseType) (v : Int) : Prop :=
  IsInt64 v ∧ ∃ bounds ∈ b.range, bounds.1 ≤ b.reading v ∧ b.reading v ≤ bounds.2

instance (b : BaseType) (v : Int) : Decidable (b.Admits v) :=
  inferInstanceAs (Decidable (_ ∧ ∃ bounds ∈ b.range, _))

/-- An integer type has a range. -/
theorem exists_range {b : BaseType} (h : b.isInteger = true) : ∃ low high, b.range = some (low, high) := by
  cases b <;> first | exact ⟨_, _, rfl⟩ | cases h

theorem isFloat_of_isInteger {b : BaseType} (h : b.isInteger = true) : b.isFloat = false := by
  cases b <;> first | rfl | cases h

/-- A type admits the numbers of its range, as far as they have 64 bits. -/
theorem admits_iff {b : BaseType} {low high v : Int} (hb : b ≠ .ulong) (hrange : b.range = some (low, high)) :
    b.Admits v ↔ IsInt64 v ∧ low ≤ v ∧ v ≤ high := by
  simp [Admits, reading, hb, hrange]

/-- The unsigned type of 64 bits admits every number: it reads the bits. -/
theorem admits_ulong {v : Int} : BaseType.ulong.Admits v ↔ IsInt64 v := by
  have hlt : (unsigned64 v : Int) ≤ Int.pow 2 64 - 1 := by
    have hmod := Int.emod_lt_of_pos v (show (0 : Int) < Int.pow 2 64 by decide)
    have hpos := Int.emod_nonneg v (show Int.pow 2 64 ≠ 0 by decide)
    rw [unsigned64, Int.toNat_of_nonneg hpos]
    omega
  exact ⟨fun h => h.1, fun h => ⟨h, (0, Int.pow 2 64 - 1), rfl, Int.natCast_nonneg _, hlt⟩⟩

/-- Every integer type admits zero and one. -/
theorem admits_bit {b : BaseType} (h : b.isInteger = true) : b.Admits 0 ∧ b.Admits 1 := by
  cases b <;> first | decide | cases h

/-- Different numbers are read as different ones. -/
theorem reading_inj {b : BaseType} {v w : Int} (hv : IsInt64 v) (hw : IsInt64 w) : b.reading v = b.reading w ↔ v = w := by
  unfold reading
  split
  next => rw [Int.ofNat_inj, unsigned64_inj hv hw]
  next => exact Iff.rfl

/-- A number is read as itself, unless it is negative and the type is not. -/
theorem reading_of_nonneg {b : BaseType} {v : Int} (hv : IsInt64 v) (hnonneg : b = .ulong → 0 ≤ v) : b.reading v = v := by
  unfold reading
  split
  next hb => exact unsigned64_of_nonneg hv (hnonneg hb)
  next => rfl

/-- Ranges other than that of 64 bits without a sign lie within 64 bits with a sign. -/
theorem isInt64_of_range {b : BaseType} {v : Int} (hb : b ≠ .ulong) {bounds : Int × Int} (hrange : b.range = some bounds)
    (hlow : bounds.1 ≤ v) (hhigh : v ≤ bounds.2) : IsInt64 v := by
  have hbounds : -Int.pow 2 63 ≤ bounds.1 ∧ bounds.2 < Int.pow 2 63 := by
    cases b <;> cases hrange <;> first | decide | exact absurd rfl hb
  exact ⟨Int.le_trans hbounds.1 hlow, Int.lt_of_le_of_lt hhigh hbounds.2⟩

/-- A range other than the greatest has some bits with a sign, or the part of them that is not negative. -/
theorem range_bits {b : BaseType} {low high : Int} (hb : b ≠ .ulong) (h : b.range = some (low, high)) :
    ∃ n, 0 < n ∧ n ≤ 64 ∧ high = Int.pow 2 (n - 1) - 1 ∧ (low = 0 ∨ low = -Int.pow 2 (n - 1)) := by
  cases b <;> cases h
  case bool => exact ⟨2, by decide, by decide, rfl, .inl rfl⟩
  case utype => exact ⟨9, by decide, by decide, rfl, .inl rfl⟩
  case ubyte => exact ⟨9, by decide, by decide, rfl, .inl rfl⟩
  case ushort => exact ⟨17, by decide, by decide, rfl, .inl rfl⟩
  case uint => exact ⟨33, by decide, by decide, rfl, .inl rfl⟩
  case byte => exact ⟨8, by decide, by decide, rfl, .inr rfl⟩
  case short => exact ⟨16, by decide, by decide, rfl, .inr rfl⟩
  case int => exact ⟨32, by decide, by decide, rfl, .inr rfl⟩
  case long => exact ⟨64, by decide, by decide, rfl, .inr rfl⟩
  case ulong => exact absurd rfl hb

/-- What a type admits is closed under taking flags together. -/
theorem admits_or {b : BaseType} {x y : BitVec 64} (hx : b.Admits x.toInt) (hy : b.Admits y.toInt) :
    b.Admits (x ||| y).toInt := by
  by_cases hb : b = .ulong
  · subst hb
    exact admits_ulong.2 (isInt64_toInt _)
  · obtain ⟨_, bounds, hrange, _⟩ := id hx
    obtain ⟨n, hpos, hn, hhigh, hlow⟩ := range_bits hb hrange
    rw [admits_iff hb hrange] at hx hy ⊢
    have hpow : 0 ≤ Int.pow 2 (n - 1) := Int.pow_nonneg (by decide)
    have hor := signed_or hpos hn (x := x) (y := y) (by omega) (by omega)
    refine ⟨isInt64_toInt _, ?_, by omega⟩
    rcases hlow with hlow | hlow
    · have hnonneg := nonneg_or (x := x) (y := y) (by omega) (by omega)
      omega
    · omega

end BaseType

/-- The greatest number of 64 bits with a sign, after which there is no next. -/
def lastInt64 : Int := Int.pow 2 63 - 1

/-! ## Members -/

/-- Every member has a number. -/
theorem MemberDoc.length_numbers (next : Int) (ms : List MemberDoc) : (numbers next ms).length = ms.length := by
  induction ms generalizing next with
  | nil => rfl
  | cons m rest ih => rw [numbers, List.length_cons, List.length_cons, ih]

namespace Resolve

/-- An identifier has no dots to replace. -/
theorem memberName_of_isIdentifier {m : MemberDoc} (h : isIdentifier m.name = true) : memberName m = m.name := by
  have hdot : '.' ∉ m.name.toList := not_mem_of_isIdentifier h (by decide)
  have hmap : m.name.toList.map (fun c => if c = '.' then '_' else c) = m.name.toList := by
    refine (List.map_congr_left fun c hc => if_neg ?_).trans (List.map_id' _)
    rintro rfl
    exact hdot hc
  rw [memberName, hmap, String.ofList_toList]

/-- The members with their numbers. -/
def numbered (next : Int) (ms : List MemberDoc) : List EnumVal :=
  (ms.zip (MemberDoc.numbers next ms)).map fun p => { name := memberName p.1, value := p.2, doc := p.1.doc }

/-- Numbering keeps the names. -/
theorem numbered_names (next : Int) (ms : List MemberDoc) : (numbered next ms).map (·.name) = ms.map memberName := by
  have hlength := Nat.le_of_eq (MemberDoc.length_numbers next ms).symm
  conv => rhs; rw [← List.map_fst_zip hlength]
  simp [numbered]

/-- The values are the numbers, in order. -/
theorem numbered_values (next : Int) (ms : List MemberDoc) : (numbered next ms).map (·.value) = MemberDoc.numbers next ms := by
  have hlength := Nat.le_of_eq (MemberDoc.length_numbers next ms)
  conv => rhs; rw [← List.map_snd_zip hlength]
  simp [numbered]

section

variable {names : NameTable} {doc : EnumDoc} {base : BaseType} (hunion : doc.isUnion = false)
  (hflags : doc.attributes.has "bit_flags" = false)

include hunion hflags

/-- One step of resolving the members of an enum whose numbers are values: the member is refused for its number or its name, or it
gets both. -/
theorem members_cons (taken : List String) (next : Int) (m : MemberDoc) (rest : List MemberDoc) :
    members names doc base taken next (m :: rest) =
      if m.number?.getD next = lastInt64 then .error (.enumValue doc.qualifiedName (toString lastInt64))
      else if taken.contains (memberName m) then .error (.duplicate .enumValue s!"{doc.qualifiedName}.{memberName m}")
      else (members names doc base (memberName m :: taken) (m.number?.getD next + 1) rest).map
        ({ name := memberName m, value := m.number?.getD next, doc := m.doc } :: ·) := by
  have hvalue : ∀ n, memberValue (doc.attributes.has "bit_flags") base doc.qualifiedName n = .ok n := by
    intro n
    rw [memberValue, hflags, if_neg Bool.false_ne_true]
  rw [members]
  refine ite_congr rfl (fun hlast => by rw [hlast]) fun _ => ?_
  rw [hvalue, hunion]
  refine ite_congr rfl (fun _ => rfl) fun _ => ?_
  cases members names doc base (memberName m :: taken) (m.number?.getD next + 1) rest <;> rfl

/-- A run over members with new and different names: either there is no number after one of them, or each gets its own. -/
theorem members_eq {ms : List MemberDoc} : ∀ {taken : List String} {next : Int}, (ms.map memberName).Nodup →
    (∀ m ∈ ms, memberName m ∉ taken) →
    members names doc base taken next ms =
      if lastInt64 ∈ MemberDoc.numbers next ms then .error (.enumValue doc.qualifiedName (toString lastInt64))
      else .ok (numbered next ms) := by
  induction ms with
  | nil =>
    intro taken next _ _
    simp [members, numbered, MemberDoc.numbers]
  | cons m rest ih =>
    intro taken next hnodup htaken
    rw [List.map_cons, List.nodup_cons] at hnodup
    have hnew : ∀ w ∈ rest, memberName w ∉ memberName m :: taken := by
      intro w hw hmem
      rcases List.mem_cons.1 hmem with heq | hmem
      · exact hnodup.1 (heq ▸ List.mem_map_of_mem hw)
      · exact htaken w (List.mem_cons_of_mem _ hw) hmem
    have hfirst : taken.contains (memberName m) = false := by simpa using htaken m List.mem_cons_self
    rw [members_cons hunion hflags, ih hnodup.2 hnew, hfirst, MemberDoc.numbers]
    by_cases hlast : m.number?.getD next = lastInt64
    · simp [hlast]
    · by_cases hlater : lastInt64 ∈ MemberDoc.numbers (m.number?.getD next + 1) rest
      · simp [hlast, hlater, Except.map]
      · simp [hlast, hlater, Ne.symm hlast, Except.map, numbered, MemberDoc.numbers]

end

/-- The integer type of an enum is the one that is mentioned. -/
theorem underlying_eq {doc : EnumDoc} {base : BaseType} (hunion : doc.isUnion = false)
    (hbase : BaseType.builtin? (doc.underlying.getD "int") = some base) (hint : base.isInteger = true) (hbool : base ≠ .bool) :
    underlying doc = .ok base := by
  simp [underlying, hunion, hbase, hint, hbool]

/-- What an enum whose numbers are values resolves to. -/
theorem enum_eq {names : NameTable} {doc : EnumDoc} {base : BaseType} (hunion : doc.isUnion = false)
    (hflags : doc.attributes.has "bit_flags" = false) (hbase : underlying doc = .ok base)
    (hdistinct : (doc.values.map memberName).Nodup) :
    enum names doc =
      if lastInt64 ∈ MemberDoc.numbers 0 doc.values then .error (.enumValue doc.qualifiedName (toString lastInt64))
      else .ok {
        name := doc.name
        scope := Namespace.ofDotted doc.scope
        doc := doc.doc
        attributes := doc.attributes
        generated := doc.generated
        underlying := .plain base
        vals := numbered 0 doc.values } := by
  have hmembers : members names doc base [] 0 doc.values = _ := members_eq hunion hflags hdistinct (by simp)
  have hvalues : values names doc base = members names doc base [] 0 doc.values := by
    simp [values, hunion]
  rw [enum, hbase]
  change (values names doc base >>= _) = _
  rw [hvalues, hmembers, hunion]
  split <;> rfl

end Resolve

/-- An enum passes if the names of its members are different and their values fit its type. -/
theorem Validity.checkEnum_of_admits {s : Schema} {e : EnumDef} {base : BaseType} (hunion : e.isUnion = false)
    (hbase : e.underlying = .plain base) (hint : base.isInteger = true) (hdistinct : (e.vals.map (·.name)).Nodup)
    (hvalues : ∀ v ∈ e.vals, base.Admits v.value) : checkEnum s e = .ok () := by
  obtain ⟨low, high, hrange⟩ := BaseType.exists_range hint
  refine checkEnum_eq_ok.2 ⟨low, high, hbase ▸ hrange, checkMembers_eq_ok.2 ⟨hdistinct, by simp, ?_, by simp [hunion]⟩⟩
  intro v hv
  obtain ⟨_, bounds, hbounds, hfits⟩ := hvalues v hv
  cases hrange.symm.trans hbounds
  rwa [hbase]

namespace Resolve

/-- The values of members have 64 bits, if the number has that a first member without one gets. -/
theorem members_isInt64 {names : NameTable} {doc : EnumDoc} {base : BaseType} {ms : List MemberDoc} :
    ∀ {taken : List String} {next : Int} {vals : List EnumVal}, members names doc base taken next ms = .ok vals →
      IsInt64 next → ∀ v ∈ vals, IsInt64 v.value := by
  induction ms with
  | nil =>
    intro taken next vals h _ v hv
    cases h
    cases hv
  | cons m rest ih =>
    intro taken next vals h hnext v hv
    obtain ⟨value, type, later, hlast, hvalue, _, _, hlater, rfl⟩ := members_cons_eq_ok h
    have hdeclared : IsInt64 (m.number?.getD next) := by
      unfold MemberDoc.number?
      cases m.value with
      | none => exact hnext
      | some n => exact isInt64_toInt n.toBitVec
    rcases List.mem_cons.1 hv with rfl | hv
    · unfold memberValue at hvalue
      split at hvalue
      next =>
        obtain ⟨_, hvalue⟩ := ite_error_eq_ok.1 hvalue
        cases hvalue
        rw [signed64_eq_toInt]
        exact isInt64_toInt _
      next =>
        cases hvalue
        exact hdeclared
    · -- the greatest number is refused, since the member behind it would have none
      have hsucc : IsInt64 (m.number?.getD next + 1) := by
        have hmax : m.number?.getD next ≠ 9223372036854775807 := hlast
        rw [isInt64_iff] at hdeclared ⊢
        omega
      exact ih hlater hsucc v hv

/-- The numbers of an enum that is read have 64 bits. -/
theorem enum_isInt64 {names : NameTable} {doc : EnumDoc} {e : EnumDef} (h : enum names doc = .ok e) :
    ∀ v ∈ e.vals, IsInt64 v.value := by
  obtain ⟨base, _, h⟩ := bind_eq_ok.1 h
  obtain ⟨vals, hvals, h⟩ := bind_eq_ok.1 h
  cases h
  intro v hv
  unfold values at hvals
  split at hvals
  next =>
    obtain ⟨variants, hvariants, hvals⟩ := bind_eq_ok.1 hvals
    cases hvals
    rcases List.mem_cons.1 hv with rfl | hv
    · decide
    · exact members_isInt64 hvariants (by decide) v hv
  next => exact members_isInt64 hvals (by decide) v hv

end Resolve

/-- The numbers of all enums have 64 bits. -/
theorem Loaded.enum_isInt64 {doc : SchemaDoc} {names : NameTable} {declared : List StructDef} {s : Schema}
    (h : Loaded doc names declared s) {e : EnumDef} (he : e ∈ s.enums) : ∀ v ∈ e.vals, IsInt64 v.value := by
  obtain ⟨_, _, hresolve⟩ := mapM_mem h.enums e he
  exact Resolve.enum_isInt64 hresolve

/-- An enum without bit flags, of an integer type, whose members have different identifiers for names and values that fit the type,
is accepted with exactly these values if the greatest number of 64 bits is not one of them. Otherwise it is refused for this
value. -/
theorem Resolve.enum_accepted_iff {names : NameTable} {s : Schema} {doc : EnumDoc} {base : BaseType} (hunion : doc.isUnion = false)
    (hflags : doc.attributes.has "bit_flags" = false) (hbase : BaseType.builtin? (doc.underlying.getD "int") = some base)
    (hint : base.isInteger = true) (hbool : base ≠ .bool) (hnames : ∀ m ∈ doc.values, isIdentifier m.name = true)
    (hdistinct : (doc.values.map (·.name)).Nodup) (hvalues : ∀ n ∈ MemberDoc.numbers 0 doc.values, base.Admits n) :
    ((∃ e, enum names doc = .ok e ∧ Validity.checkEnum s e = .ok () ∧ e.underlying = .plain base ∧
        e.vals.map (·.name) = doc.values.map (·.name) ∧ e.vals.map (·.value) = MemberDoc.numbers 0 doc.values) ↔
      lastInt64 ∉ MemberDoc.numbers 0 doc.values) ∧
    (lastInt64 ∈ MemberDoc.numbers 0 doc.values →
      enum names doc = .error (.enumValue doc.qualifiedName "9223372036854775807")) := by
  have hplain : doc.values.map memberName = doc.values.map (·.name) :=
    List.map_congr_left fun m hm => memberName_of_isIdentifier (hnames m hm)
  have henum : enum names doc = _ :=
    enum_eq hunion hflags (underlying_eq hunion hbase hint hbool) (hplain ▸ hdistinct)
  refine ⟨⟨?_, fun hlast => ?_⟩, fun hlast => henum.trans (if_pos hlast)⟩
  · rintro ⟨e, he, _⟩ hlast
    rw [henum, if_pos hlast] at he
    cases he
  · refine ⟨_, henum.trans (if_neg hlast), ?_, rfl, (numbered_names _ _).trans hplain, numbered_values _ _⟩
    refine Validity.checkEnum_of_admits rfl rfl hint (numbered_names _ _ ▸ hplain ▸ hdistinct) fun v hv => ?_
    exact hvalues _ (numbered_values 0 doc.values ▸ List.mem_map_of_mem hv)

/-- An enum of 64 bits without a sign whose values are near the ends of those with a sign. -/
def extremeEnum : EnumDoc where
  name := "E"
  underlying := some "uint64"
  values := [
    { name := "Half", value := some Int64.minValue }, { name := "Beyond" }, { name := "All", value := some (-1) },
    { name := "Zero" }, { name := "Last", value := some (Int64.maxValue - 1) }]

/-- The enum is accepted, and members without a number go on counting from the one before them. -/
theorem extremeEnum_accepted : ∃ e, Resolve.enum [] extremeEnum = .ok e ∧ Validity.checkEnum { fileName := "" } e = .ok () ∧
    e.underlying = .plain .ulong ∧ e.vals.map (·.name) = ["Half", "Beyond", "All", "Zero", "Last"] ∧
    e.vals.map (·.value) = [-9223372036854775808, -9223372036854775807, -1, 0, 9223372036854775806] :=
  (Resolve.enum_accepted_iff (by decide) (by decide) rfl (by decide) (by decide) (by decide) (by decide) (by decide)).1.2
    (by decide)

/-- An enum with the greatest number of its type. -/
def lastEnum : EnumDoc where
  name := "E"
  underlying := some "long"
  values := [{ name := "A", value := some Int64.maxValue }]

/-- The number fits, no member asks for the one after it, and yet the enum is refused. -/
theorem lastEnum_refused : BaseType.long.Admits lastInt64 ∧ MemberDoc.numbers 0 lastEnum.values = [lastInt64] ∧
    Resolve.enum [] lastEnum = .error (.enumValue "E" "9223372036854775807") ∧
    Schema.ofDocument { enums := [lastEnum] } = .error (.enumValue "E" "9223372036854775807") := by
  refine ⟨by decide, by decide, by decide +kernel, by decide +kernel⟩

end FlatSchema
