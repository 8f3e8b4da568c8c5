import FlatSchema.Proofs.MemberDefaults
import FlatSchema.Target.PythonEnums

/-!
# The bounds of enums in Python

The class of an enum names its members with the least and the greatest value. Values are compared with their sign, while the numbers
of the members are printed as the integer type of the enum reads them. In 64 bits without a sign the two orders differ, so that the
bounds are those of the printed numbers exactly if the values all have one sign (`Schema.ofDocument_enumBounds`).
-/

namespace FlatSchema

/-! ## The members with the least and the greatest value -/

namespace Python

theorem firstLeast?_cons (v : EnumVal) (rest : List EnumVal) :
    ∃ least, firstLeast? (v :: rest) = some least ∧ least ∈ v :: rest ∧ ∀ w ∈ v :: rest, least.value ≤ w.value := by
  induction rest generalizing v with
  | nil => exact ⟨v, rfl, List.mem_cons_self, by simp⟩
  | cons u rest ih =>
    obtain ⟨least, hleast, hmem, hle⟩ := ih u
    rw [firstLeast?, hleast]
    dsimp only
    by_cases hlt : least.value < v.value
    · exact ⟨least, by rw [if_pos hlt], List.mem_cons_of_mem v hmem, List.forall_mem_cons.2 ⟨Int.le_of_lt hlt, hle⟩⟩
    · refine ⟨v, by rw [if_neg hlt], List.mem_cons_self, List.forall_mem_cons.2 ⟨Int.le_refl _, fun w hw => ?_⟩⟩
      exact Int.le_trans (Int.not_lt.1 hlt) (hle w hw)

theorem lastGreatest?_cons (v : EnumVal) (rest : List EnumVal) :
    ∃ greatest, lastGreatest? (v :: rest) = some greatest ∧ greatest ∈ v :: rest ∧ ∀ w ∈ v :: rest, w.value ≤ greatest.value := by
  induction rest generalizing v with
  | nil => exact ⟨v, rfl, List.mem_cons_self, by simp⟩
  | cons u rest ih =>
    obtain ⟨greatest, hgreatest, hmem, hle⟩ := ih u
    rw [lastGreatest?, hgreatest]
    dsimp only
    by_cases hlt : greatest.value < v.value
    · refine ⟨v, by rw [if_pos hlt], List.mem_cons_self, List.forall_mem_cons.2 ⟨Int.le_refl _, fun w hw => ?_⟩⟩
      exact Int.le_trans (hle w hw) (Int.le_of_lt hlt)
    · exact ⟨greatest, by rw [if_neg hlt], List.mem_cons_of_mem v hmem, List.forall_mem_cons.2 ⟨Int.not_lt.1 hlt, hle⟩⟩

/-- The lines that name the bounds. -/
def boundLines (env : Env) (least greatest : EnumVal) : Code :=
  Code.line (s!"MIN = {env.namer.variant least.name}" : String) ++
    Code.line (s!"MAX = {env.namer.variant greatest.name}" : String)

theorem bounds_eq {e : EnumDef} (hflags : e.isBitFlags = false) (hnames : ∀ m ∈ e.vals, m.name ≠ "MIN" ∧ m.name ≠ "MAX")
    {least greatest : EnumVal} (hleast : firstLeast? e.vals = some least) (hgreatest : lastGreatest? e.vals = some greatest)
    (env : Env) : bounds env e = boundLines env least greatest := by
  have hfree : ((e.val? "MIN").isNone && (e.val? "MAX").isNone) = true := by
    simp only [EnumDef.val?, Bool.and_eq_true, Option.isNone_iff_eq_none, List.find?_eq_none, beq_iff_eq]
    exact ⟨fun m hm => (hnames m hm).1, fun m hm => (hnames m hm).2⟩
  rw [bounds, hflags, hleast, hgreatest]
  dsimp only
  rw [if_neg Bool.false_ne_true, Code.when, if_pos hfree, boundLines]

end Python

/-! ## The order of printed numbers -/

namespace BaseType

variable {b : BaseType} {v w : Int}

/-- Numbers are in the order of the values if the values have one sign. -/
theorem reading_le (hv : IsInt64 v) (hw : IsInt64 w) (hsign : b = .ulong → (v < 0 ↔ w < 0)) (hle : v ≤ w) :
    b.reading v ≤ b.reading w := by
  unfold reading
  by_cases hb : b = .ulong
  · rw [if_pos hb, if_pos hb]
    by_cases hneg : v < 0
    · rw [unsigned64_of_neg hv hneg, unsigned64_of_neg hw ((hsign hb).1 hneg)]
      omega
    · rw [unsigned64_of_nonneg hv (Int.not_lt.1 hneg), unsigned64_of_nonneg hw (by omega)]
      exact hle
  · rwa [if_neg hb, if_neg hb]

/-- In 64 bits without a sign a negative value is printed as the greater number. -/
theorem reading_lt_of_neg (hv : IsInt64 v) (hw : IsInt64 w) (hneg : v < 0) (hnonneg : 0 ≤ w) :
    BaseType.ulong.reading w < BaseType.ulong.reading v := by
  unfold reading
  rw [if_pos rfl, if_pos rfl, unsigned64_of_neg hv hneg, unsigned64_of_nonneg hw hnonneg]
  rw [isInt64_iff] at hv hw
  omega

end BaseType

/-- Members with the least and the greatest value have the least and the greatest printed number exactly if in 64 bits without a
sign all values have one sign. -/
theorem EnumDef.bounds_iff {e : EnumDef} (hint64 : ∀ m ∈ e.vals, IsInt64 m.value) {least greatest : EnumVal}
    (hleast : least ∈ e.vals) (hgreatest : greatest ∈ e.vals)
    (hbounds : ∀ m ∈ e.vals, least.value ≤ m.value ∧ m.value ≤ greatest.value) :
    (∀ m ∈ e.vals, e.underlying.base.reading least.value ≤ e.underlying.base.reading m.value ∧
      e.underlying.base.reading m.value ≤ e.underlying.base.reading greatest.value) ↔
    (e.underlying.base = .ulong → (∀ m ∈ e.vals, 0 ≤ m.value) ∨ ∀ m ∈ e.vals, m.value < 0) := by
  constructor
  · intro hprinted hulong
    rw [hulong] at hprinted
    by_cases hneg : least.value < 0
    · -- a value that is not negative would be printed as a smaller number than the least
      refine .inr fun m hm => Int.not_le.1 fun hnonneg => ?_
      exact Int.not_lt.2 (hprinted m hm).1 (BaseType.reading_lt_of_neg (hint64 _ hleast) (hint64 m hm) hneg hnonneg)
    · exact .inl fun m hm => Int.le_trans (Int.not_lt.1 hneg) (hbounds m hm).1
  · intro hsigns m hm
    have hsame : ∀ {m m' : EnumVal}, m ∈ e.vals → m' ∈ e.vals → e.underlying.base = .ulong → (m.value < 0 ↔ m'.value < 0) := by
      intro m m' hm hm' hulong
      rcases hsigns hulong with hall | hall
      · exact iff_of_false (Int.not_lt.2 (hall m hm)) (Int.not_lt.2 (hall m' hm'))
      · exact iff_of_true (hall m hm) (hall m' hm')
    obtain ⟨hlow, hhigh⟩ := hbounds m hm
    exact ⟨BaseType.reading_le (hint64 _ hleast) (hint64 m hm) (hsame hleast hm) hlow,
      BaseType.reading_le (hint64 m hm) (hint64 _ hgreatest) (hsame hm hgreatest) hhigh⟩

/-- The class of a loaded enum without bit flags, which has members and none of the names of the bounds among them, names two of
them as the bounds. They have the least and the greatest of the printed numbers exactly if the enum has another type than 64 bits
without a sign, or all its values have one sign: the highest bit is clear in all of them or set in all of them. -/
theorem Schema.ofDocument_enumBounds {doc : SchemaDoc} {s : Schema} (h : Schema.ofDocument doc = .ok s)
    {e : EnumDef} (he : e ∈ s.enums) (hflags : e.isBitFlags = false) (hne : e.vals ≠ [])
    (hnames : ∀ m ∈ e.vals, m.name ≠ "MIN" ∧ m.name ≠ "MAX") (env : Env) :
    (∀ m ∈ e.vals, Text.readInt? (e.valueText m.value).toList = some (e.underlying.base.reading m.value)) ∧
    ∃ least ∈ e.vals, ∃ greatest ∈ e.vals, Python.bounds env e = Python.boundLines env least greatest ∧
      ((∀ m ∈ e.vals, e.underlying.base.reading least.value ≤ e.underlying.base.reading m.value ∧
        e.underlying.base.reading m.value ≤ e.underlying.base.reading greatest.value) ↔
      (e.underlying.base = .ulong → (∀ m ∈ e.vals, 0 ≤ m.value) ∨ ∀ m ∈ e.vals, m.value < 0)) := by
  obtain ⟨names, declared, hloaded⟩ := Schema.ofDocument_loaded h
  obtain ⟨v, rest, hvals⟩ := List.exists_cons_of_ne_nil hne
  obtain ⟨least, hleast, hleastMem, hlow⟩ := Python.firstLeast?_cons v rest
  obtain ⟨greatest, hgreatest, hgreatestMem, hhigh⟩ := Python.lastGreatest?_cons v rest
  rw [← hvals] at hleast hleastMem hlow hgreatest hgreatestMem hhigh
  refine ⟨fun m _ => EnumDef.readInt?_valueText, least, hleastMem, greatest, hgreatestMem, ?_, ?_⟩
  · exact Python.bounds_eq hflags hnames hleast hgreatest env
  · exact EnumDef.bounds_iff (hloaded.enum_isInt64 he) hleastMem hgreatestMem fun m hm => ⟨hlow m hm, hhigh m hm⟩

/-- An enum of 64 bits without a sign whose values all have the highest bit set. -/
def upperEnum : EnumDoc where
  name := "E"
  underlying := some "ulong"
  values := [{ name := "Top", value := some (-1) }, { name := "Half", value := some (-9223372036854775808) }, { name := "After" }]

theorem upperEnum_bounds : ∃ s e, Schema.ofDocument { enums := [upperEnum] } = .ok s ∧ s.enums = [e] ∧
    e.vals.map (fun m => e.valueText m.value) = ["18446744073709551615", "9223372036854775808", "9223372036854775809"] ∧
    ∃ least ∈ e.vals, ∃ greatest ∈ e.vals,
      Python.bounds { schema := s, options := {}, namer := Python.namer {} } e =
        Python.boundLines { schema := s, options := {}, namer := Python.namer {} } least greatest ∧
      ∀ m ∈ e.vals, e.underlying.base.reading least.value ≤ e.underlying.base.reading m.value ∧
        e.underlying.base.reading m.value ≤ e.underlying.base.reading greatest.value := by
  obtain ⟨s, hs, he⟩ := Schema.exists_ofDocument { enums := [upperEnum] } (·.enums)
    [{ name := "E", underlying := .plain .ulong, vals := [{ name := "Top", value := -1 },
      { name := "Half", value := -9223372036854775808 }, { name := "After", value := -9223372036854775807 }] }] (by decide +kernel)
  obtain ⟨_, least, hleast, greatest, hgreatest, hlines, hiff⟩ := Schema.ofDocument_enumBounds hs
    (he ▸ List.mem_cons_self) (by decide) (by decide) (by decide) { schema := s, options := {}, namer := Python.namer {} }
  exact ⟨s, _, hs, he, by decide, least, hleast, greatest, hgreatest, hlines, hiff.2 (by decide)⟩

/-- An enum of 64 bits without a sign with a small and the greatest number. -/
def straddlingEnum : EnumDoc where
  name := "E"
  underlying := some "ulong"
  values := [{ name := "Low", value := some 1 }, { name := "High", value := some (-1) }]

/-- The member with the greatest number is named as the least, and the one with the least as the greatest. -/
theorem straddlingEnum_bounds : ∃ s e least greatest, Schema.ofDocument { enums := [straddlingEnum] } = .ok s ∧ s.enums = [e] ∧
    e.vals = [greatest, least] ∧ (e.valueText greatest.value, e.valueText least.value) = ("1", "18446744073709551615") ∧
    e.underlying.base.reading greatest.value < e.underlying.base.reading least.value ∧
    ∀ env, Python.bounds env e = Python.boundLines env least greatest := by
  obtain ⟨s, hs, he⟩ := Schema.exists_ofDocument { enums := [straddlingEnum] } (·.enums)
    [{ name := "E", underlying := .plain .ulong, vals := [{ name := "Low", value := 1 }, { name := "High", value := -1 }] }]
    (by decide +kernel)
  exact ⟨s, _, _, _, hs, he, rfl, by decide, by decide, Python.bounds_eq (by decide) (by decide) rfl rfl⟩

end FlatSchema
