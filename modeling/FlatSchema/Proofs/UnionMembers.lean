import FlatSchema.Proofs.Lookups
import Mathlib.Data.List.Nodup

/-!
# The variants of unions

A union starts with the variant that stands for no payload. The variants that are declared are numbered: a number may be given, and
otherwise a variant follows the one before it (`MemberDoc.numbers`). Given numbers may be zero or occur twice, and nothing refuses
them. If they do not, a discriminant tells the variant (`Schema.ofDocument_unionVariants`).
-/

namespace FlatSchema

/-! ## Numbers of members -/

/-- The numbers of members: a member for which none is given follows the one before it. -/
def MemberDoc.numbers : Int → List MemberDoc → List Int
  | _, [] => []
  | next, m :: rest => m.number?.getD next :: numbers (m.number?.getD next + 1) rest

/-- The numbers that follow each other from a first one. -/
def countFrom (first : Int) (count : Nat) : List Int := (List.range count).map fun k : Nat => first + k

/-- Counting goes on from the next number. -/
theorem countFrom_succ (first : Int) (count : Nat) : countFrom first (count + 1) = first :: countFrom (first + 1) count := by
  unfold countFrom
  rw [List.range_succ_eq_map, List.map_cons, List.map_map]
  congr 1
  · simp
  · refine List.map_congr_left fun k _ => ?_
    simp only [Function.comp_apply, Nat.succ_eq_add_one]
    omega

/-- Members are counted exactly if each number that is given is the one that its member would have anyway. -/
theorem MemberDoc.numbers_eq_countFrom_iff {ms : List MemberDoc} : ∀ {next : Int},
    numbers next ms = countFrom next ms.length ↔
      ∀ (k : Nat) m, ms[k]? = some m → m.number?.getD (next + k) = next + k := by
  induction ms with
  | nil => simp [numbers, countFrom]
  | cons m rest ih =>
    intro next
    have hplace : ∀ k : Nat, next + 1 + (k : Int) = next + (k + 1 : Nat) := fun k => by omega
    rw [numbers, List.length_cons, countFrom_succ, List.cons.injEq]
    constructor
    · rintro ⟨hfirst, hrest⟩ k x hx
      rw [hfirst, ih] at hrest
      cases k with
      | zero =>
        cases hx
        simpa using hfirst
      | succ k =>
        rw [← hplace]
        exact hrest k x hx
    · intro h
      have hfirst : m.number?.getD next = next := by simpa using h 0 m rfl
      refine ⟨hfirst, ?_⟩
      rw [hfirst, ih]
      intro k x hx
      rw [hplace]
      exact h (k + 1) x hx

/-- Without given numbers members are counted. -/
theorem MemberDoc.numbers_of_none {ms : List MemberDoc} (h : ∀ m ∈ ms, m.value = none) {next : Int} :
    numbers next ms = countFrom next ms.length := by
  refine numbers_eq_countFrom_iff.2 fun k m hm => ?_
  rw [MemberDoc.number?, h m (List.mem_of_getElem? hm), Option.map_none, Option.getD_none]

/-- Counting from one gives different numbers, none of them zero. -/
theorem countFrom_one_spec (count : Nat) : (countFrom 1 count).Nodup ∧ 0 ∉ countFrom 1 count := by
  refine ⟨List.nodup_range.map ?_, ?_⟩
  · intro a b hab
    have hsum : (1 : Int) + a = 1 + b := hab
    omega
  · intro hmem
    obtain ⟨k, _, hk⟩ := List.mem_map.1 hmem
    omega

/-- The discriminant of a variant with a given number, which in a union of bit flags is the position of a bit. -/
def EnumDoc.discriminant (d : EnumDoc) (n : Int) : Int :=
  if d.attributes.has "bit_flags" then (Nat.pow 2 n.toNat : Nat) else n

/-- Without flags the discriminants are the numbers. -/
theorem EnumDoc.map_discriminant {d : EnumDoc} (h : d.attributes.has "bit_flags" = false) (numbers : List Int) :
    numbers.map d.discriminant = numbers := by
  refine (List.map_congr_left fun n _ => if_neg ?_).trans (List.map_id' _)
  simp [h]

/-- Without bit flags the discriminants are counted from one exactly if every number that is given is the place of its variant. -/
theorem EnumDoc.counted_iff {d : EnumDoc} (h : d.attributes.has "bit_flags" = false) :
    (MemberDoc.numbers 1 d.values).map d.discriminant = countFrom 1 d.values.length ↔
      ∀ (k : Nat) m n, d.values[k]? = some m → m.number? = some n → n = 1 + k := by
  rw [map_discriminant h, MemberDoc.numbers_eq_countFrom_iff]
  constructor
  · intro hplaces k m n hm hn
    simpa [hn] using hplaces k m hm
  · intro hplaces k m hm
    cases hn : m.number? with
    | none => rfl
    | some n => exact hplaces k m n hm hn

/-- A number below the sign is read as itself. -/
theorem signed64_of_lt {n : Nat} (h : n < Nat.pow 2 63) : signed64 n = n := by
  have hlow : n % Nat.pow 2 64 = n := Nat.mod_eq_of_lt (Nat.lt_trans h (by decide))
  unfold signed64
  dsimp only
  rw [hlow, if_pos h]

namespace Resolve

/-- The number of a variant is its discriminant. -/
theorem memberValue_discriminant {d : EnumDoc} {context : String} {n value : Int}
    (h : memberValue (d.attributes.has "bit_flags") .utype context n = .ok value) :
    value = d.discriminant n ∧ (d.attributes.has "bit_flags" = true → 0 ≤ n) := by
  unfold memberValue at h
  unfold EnumDoc.discriminant
  split at h
  next hflags =>
    obtain ⟨hrange, h⟩ := ite_error_eq_ok.1 h
    cases h
    have hsize : BaseType.utype.size = 1 := rfl
    have hlt : Nat.pow 2 n.toNat < Nat.pow 2 63 := Nat.pow_lt_pow_right (by decide) (by omega)
    exact ⟨by rw [if_pos hflags, signed64_of_lt hlt], fun _ => hrange.1⟩
  next hflags =>
    cases h
    exact ⟨(if_neg hflags).symm, fun hyes => absurd hyes hflags⟩

/-- The members of a union bear the names and have the discriminants of what is declared. -/
theorem members_declared {names : NameTable} {d : EnumDoc} {ms : List MemberDoc} :
    ∀ {taken : List String} {next : Int} {vals : List EnumVal}, members names d .utype taken next ms = .ok vals →
      vals.map (·.name) = ms.map memberName ∧
      vals.map (·.value) = (MemberDoc.numbers next ms).map d.discriminant ∧
      (d.attributes.has "bit_flags" = true → ∀ n ∈ MemberDoc.numbers next ms, 0 ≤ n) := by
  induction ms with
  | nil =>
    intro taken next vals h
    cases h
    exact ⟨rfl, rfl, fun _ => nofun⟩
  | cons m rest ih =>
    intro taken next vals h
    obtain ⟨value, type, later, _, hvalue, _, _, hlater, rfl⟩ := members_cons_eq_ok h
    obtain ⟨hnames, hvalues, hrange⟩ := ih hlater
    obtain ⟨hvalue, hfirst⟩ := memberValue_discriminant hvalue
    refine ⟨?_, ?_, ?_⟩
    · rw [List.map_cons, List.map_cons, hnames]
    · rw [List.map_cons, MemberDoc.numbers, List.map_cons, hvalues, hvalue]
    · intro hflags n hn
      rcases List.mem_cons.1 hn with rfl | hn
      · exact hfirst hflags
      · exact hrange hflags n hn

/-- What a declared union resolves to. -/
theorem enum_variants {names : NameTable} {d : EnumDoc} {e : EnumDef} (h : enum names d = .ok e) (hu : e.isUnion = true) :
    ∃ declared, e.vals = noPayload :: declared ∧ declared.map (·.name) = d.values.map memberName ∧
      declared.map (·.value) = (MemberDoc.numbers 1 d.values).map d.discriminant ∧
      (d.attributes.has "bit_flags" = true → ∀ n ∈ MemberDoc.numbers 1 d.values, 0 ≤ n) := by
  obtain ⟨base, hbase, h⟩ := bind_eq_ok.1 h
  obtain ⟨vals, hvals, h⟩ := bind_eq_ok.1 h
  cases h
  have hunion : d.isUnion = true := hu
  rcases underlying_spec hbase with ⟨_, rfl⟩ | ⟨hno, _⟩
  · unfold values at hvals
    rw [if_pos hunion] at hvals
    obtain ⟨declared, hdeclared, hvals⟩ := bind_eq_ok.1 hvals
    cases hvals
    exact ⟨declared, rfl, members_declared hdeclared⟩
  · rw [hunion] at hno
    cases hno

end Resolve

/-! ## Discriminants -/

/-- The declared variants of a union are told by their discriminants, and all of them carry something. -/
structure EnumDef.Discriminated (s : Schema) (e : EnumDef) (declared : List EnumVal) : Prop where
  nonzero : ∀ v ∈ declared, v.value ≠ 0
  distinct : (declared.map (·.value)).Nodup
  payload : ∀ v ∈ declared, v.payload.isString = true ∨ s.isTable v.payload = true
  /-- No declared variant is left out. -/
  kept : e.variants = declared
  /-- The discriminant of a variant leads to it. -/
  told : ∀ v ∈ declared, e.withValue? v.value = some v

/-- What tells the members of a list apart finds each of them. -/
theorem find?_of_nodup {α β : Type} [BEq β] [LawfulBEq β] {f : α → β} {vs : List α} (h : (vs.map f).Nodup) {v : α}
    (hv : v ∈ vs) : vs.find? (fun m => f m == f v) = some v := by
  induction vs with
  | nil => cases hv
  | cons w rest ih =>
    rw [List.map_cons, List.nodup_cons] at h
    rcases List.mem_cons.1 hv with rfl | hv
    · simp
    · have hne : f w ≠ f v := by
        intro heq
        exact h.1 (heq ▸ List.mem_map_of_mem hv)
      rw [List.find?_cons_of_neg (by simpa using hne)]
      exact ih h.2 hv

/-- Variants other than the empty one are all kept. -/
theorem filter_nonzero {vs : List EnumVal} (h : ∀ v ∈ vs, v.value ≠ 0) : vs.filter (fun v => !v.isZero) = vs := by
  refine List.filter_eq_self.2 fun v hv => ?_
  simpa [EnumVal.isZero] using h v hv

/-- The variant for no payload is not one of those with a payload. -/
theorem EnumDef.variants_eq {e : EnumDef} {declared : List EnumVal} (hvals : e.vals = Resolve.noPayload :: declared) :
    e.variants = declared.filter fun v => !v.isZero := by
  rw [EnumDef.variants, hvals]
  exact List.filter_cons_of_neg (by decide)

/-- Discriminants that are different and not zero tell the variants. -/
theorem EnumDef.discriminated_iff {s : Schema} {e : EnumDef} {declared : List EnumVal}
    (hvals : e.vals = Resolve.noPayload :: declared)
    (hpayload : ∀ v ∈ declared, v.value = 0 ∨ v.payload.isString = true ∨ s.isTable v.payload = true) :
    e.Discriminated s declared ↔ (declared.map (·.value)).Nodup ∧ 0 ∉ declared.map (·.value) := by
  constructor
  · intro h
    refine ⟨h.distinct, fun hmem => ?_⟩
    obtain ⟨v, hv, hzero⟩ := List.mem_map.1 hmem
    exact h.nonzero v hv hzero
  · rintro ⟨hdistinct, hzero⟩
    have hnonzero : ∀ v ∈ declared, v.value ≠ 0 := by
      intro v hv heq
      exact hzero (heq ▸ List.mem_map_of_mem hv)
    refine ⟨hnonzero, hdistinct, fun v hv => (hpayload v hv).resolve_left (hnonzero v hv), ?_, ?_⟩
    · rw [variants_eq hvals, filter_nonzero hnonzero]
    · intro v hv
      have hfirst : Resolve.noPayload.value ≠ v.value := fun heq => hnonzero v hv heq.symm
      unfold EnumDef.withValue?
      rw [hvals, List.find?_cons_of_neg (by simpa using hfirst), find?_of_nodup hdistinct hv]

/-- Discriminants are different and not zero if the numbers are, where the position of a bit may be zero. -/
theorem EnumDoc.discriminants_iff {d : EnumDoc} {numbers : List Int}
    (hflags : d.attributes.has "bit_flags" = true → ∀ n ∈ numbers, 0 ≤ n) :
    ((numbers.map d.discriminant).Nodup ∧ 0 ∉ numbers.map d.discriminant) ↔
      (numbers.Nodup ∧ (d.attributes.has "bit_flags" = true ∨ 0 ∉ numbers)) := by
  by_cases hbits : d.attributes.has "bit_flags" = true
  · have hvalue : ∀ n, d.discriminant n = (Nat.pow 2 n.toNat : Nat) := fun n => if_pos hbits
    have hinj : ∀ a ∈ numbers, ∀ b ∈ numbers, d.discriminant a = d.discriminant b → a = b := by
      intro a ha b hb heq
      have hpow : Nat.pow 2 a.toNat = Nat.pow 2 b.toNat := by
        rw [hvalue, hvalue] at heq
        exact_mod_cast heq
      have hplaces := (Nat.pow_right_inj (a := 2) (by decide)).1 hpow
      have hpos := hflags hbits a ha
      have hpos' := hflags hbits b hb
      omega
    have hzero : 0 ∉ numbers.map d.discriminant := by
      intro hmem
      obtain ⟨n, _, hn⟩ := List.mem_map.1 hmem
      have hpos : 0 < Nat.pow 2 n.toNat := Nat.pow_pos (by decide)
      rw [hvalue] at hn
      omega
    constructor
    · rintro ⟨hnodup, _⟩
      exact ⟨hnodup.of_map, .inl hbits⟩
    · rintro ⟨hnodup, _⟩
      exact ⟨hnodup.map_on hinj, hzero⟩
  · rw [map_discriminant (Bool.eq_false_iff.2 hbits)]
    simp [hbits]

/-- The member list of a union starts with the variant for no payload, and behind it are the declared variants in order, numbered
as they are declared. A variant whose discriminant is not zero carries a table or a string. The discriminants tell the declared
variants, and none is left out, exactly if no two numbers are the same and none is zero (a bit may have the position zero). So it is
if no number is given. -/
theorem Schema.ofDocument_unionVariants {doc : SchemaDoc} {s : Schema} (h : Schema.ofDocument doc = .ok s) {i : Nat} {e : EnumDef}
    (he : s.enums[i]? = some e) (hu : e.isUnion = true) :
    ∃ d declared, doc.enums[i]? = some d ∧ e.vals = { name := "NONE", value := 0 } :: declared ∧
      declared.map (·.name) = d.values.map Resolve.memberName ∧
      declared.map (·.value) = (MemberDoc.numbers 1 d.values).map d.discriminant ∧
      (∀ v ∈ declared, v.value = 0 ∨ v.payload.isString = true ∨ s.isTable v.payload = true) ∧
      (e.Discriminated s declared ↔ (MemberDoc.numbers 1 d.values).Nodup ∧
        (d.attributes.has "bit_flags" = true ∨ 0 ∉ MemberDoc.numbers 1 d.values)) ∧
      ((∀ m ∈ d.values, m.value = none) → e.Discriminated s declared) := by
  obtain ⟨names, structs, h⟩ := Schema.ofDocument_loaded h
  obtain ⟨d, hd, hresolve⟩ := (mapM_getElem? h.enums).2 i e he
  obtain ⟨declared, hvals, hnames, hvalues, hflags⟩ := Resolve.enum_variants hresolve hu
  have hmem := List.mem_of_getElem? he
  have hpayload : ∀ v ∈ declared, v.value = 0 ∨ v.payload.isString = true ∨ s.isTable v.payload = true := by
    intro v hv
    by_cases hzero : v.value = 0
    · exact .inl hzero
    · have hvariant : v ∈ e.variants := by
        refine List.mem_filter.2 ⟨hvals ▸ List.mem_cons_of_mem _ hv, ?_⟩
        simpa [EnumVal.isZero] using hzero
      exact .inr (h.closed.variant e hmem hu v hvariant)
  have hiff : e.Discriminated s declared ↔ (MemberDoc.numbers 1 d.values).Nodup ∧
      (d.attributes.has "bit_flags" = true ∨ 0 ∉ MemberDoc.numbers 1 d.values) := by
    rw [EnumDef.discriminated_iff hvals hpayload, hvalues, EnumDoc.discriminants_iff hflags]
  refine ⟨d, declared, hd, hvals, hnames, hvalues, hpayload, hiff, fun hnone => hiff.2 ?_⟩
  obtain ⟨hnodup, hzero⟩ := countFrom_one_spec d.values.length
  rw [MemberDoc.numbers_of_none hnone]
  exact ⟨hnodup, .inr hzero⟩

/-- A union of tables with given numbers. -/
def numberedDoc : SchemaDoc where
  enums := [
    { name := "U", isUnion := true,
      values := [{ name := "A", value := some 5 }, { name := "B" }, { name := "Text", value := some 2, type := some "string" }] }]
  structs := [{ name := "A" }, { name := "B" }]

/-- Variants with and without numbers of their own: those without go on counting. -/
theorem numberedDoc_unionVariants : ∃ s e, ∃ declared : List EnumVal, Schema.ofDocument numberedDoc = .ok s ∧
    s.enums[0]? = some e ∧ e.isUnion = true ∧ declared.map (·.name) = ["A", "B", "Text"] ∧
    declared.map (·.value) = [5, 6, 2] ∧ e.Discriminated s declared := by
  obtain ⟨s, hs, hlook⟩ := Schema.exists_ofDocument numberedDoc (fun s => s.enums[0]?.map (·.isUnion)) (some true)
    (by decide +kernel)
  obtain ⟨e, he, hu⟩ := Option.map_eq_some_iff.1 hlook
  obtain ⟨d, declared, hd, _, hnames, hvalues, _, hiff, _⟩ := Schema.ofDocument_unionVariants hs he hu
  cases hd
  exact ⟨s, e, declared, hs, he, hu, hnames.trans (by decide), hvalues.trans (by decide), hiff.2 (by decide)⟩

/-- A union that gives a number twice, and zero to a fixed struct. -/
def sharingDoc : SchemaDoc where
  enums := [
    { name := "U", isUnion := true,
      values := [{ name := "A", value := some 1 }, { name := "B", value := some 1 }, { name := "P", value := some 0 }] }]
  structs := [{ name := "A" }, { name := "B" }, { name := "P", fixed := true, fields := [{ name := "x", type := "int" }] }]

/-- The document is accepted. The discriminant of `B` leads to `A`, and `P`, which is no table, is left out. -/
theorem sharingDoc_not_discriminated : ∃ s e, Schema.ofDocument sharingDoc = .ok s ∧ s.enums[0]? = some e ∧
    e.vals.map (fun v => (v.name, v.value)) = [("NONE", 0), ("A", 1), ("B", 1), ("P", 0)] ∧
    e.vals.map (fun v => s.isTable v.payload) = [false, true, true, false] ∧
    (e.withValue? 1).map (·.name) = some "A" ∧ e.variants.map (·.name) = ["A", "B"] ∧
    ¬e.Discriminated s e.vals.tail := by
  obtain ⟨s, hs, hlook⟩ := Schema.exists_ofDocument sharingDoc
    (fun s => s.enums[0]?.map fun e : EnumDef => decide (
      e.vals.map (fun v => (v.name, v.value)) = [("NONE", 0), ("A", 1), ("B", 1), ("P", 0)] ∧
      e.vals.map (fun v => s.isTable v.payload) = [false, true, true, false] ∧
      (e.withValue? 1).map (·.name) = some "A" ∧ e.variants.map (·.name) = ["A", "B"])) (some true) (by decide +kernel)
  obtain ⟨e, he, hlook⟩ := Option.map_eq_some_iff.1 hlook
  obtain ⟨hvals, htables, htold, hkept⟩ := of_decide_eq_true hlook
  refine ⟨s, e, hs, he, hvals, htables, htold, hkept, fun h => ?_⟩
  have hlength := congrArg List.length h.kept
  have hkept := congrArg List.length hkept
  have hvals := congrArg List.length hvals
  simp only [List.length_map, List.length_tail, List.length_cons, List.length_nil] at hlength hkept hvals
  omega

end FlatSchema
