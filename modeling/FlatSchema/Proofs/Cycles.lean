import FlatSchema.Proofs.Placement
import Mathlib.Data.Finset.Card
import Mathlib.Data.Finset.Range
import Mathlib.Data.List.Chain
import Mathlib.Logic.Relation

/-!
# Structs that contain themselves

Laying out a struct lays out the structs inside it first, with the structs around it on a path. A struct that is met on its own path
contains itself, and the path is reported. The invariant is that each struct on the path contains the next and none stands on it
twice (`Nesting`). So the search is never as deep as its bound, a path that is reported leads around a cycle, and a schema with a
cycle is refused, for this or because one of its definitions cannot be laid out (`placeAllBy_cycles`). All this is about the search
alone: it holds whichever way a single struct is laid out, with sizes of any length, with sizes that wrap around and with sizes that
are refused when they grow too large.
-/

namespace FlatSchema

/-! ## Relations without cycles -/

/-- Nothing is related to itself, directly or through others. -/
def Acyclic (r : Nat → Nat → Prop) : Prop := ∀ i, ¬Relation.TransGen r i i

/-- A rank that goes down along a relation excludes cycles. -/
theorem Acyclic.of_rank {r : Nat → Nat → Prop} (rank : Nat → Nat) (h : ∀ i j, r i j → rank j < rank i) : Acyclic r := by
  have hdown : ∀ {i j}, Relation.TransGen r i j → rank j < rank i := by
    intro i j hij
    induction hij with
    | single hij => exact h _ _ hij
    | tail _ hjk ih => exact Nat.lt_trans (h _ _ hjk) ih
  exact fun i hi => Nat.lt_irrefl _ (hdown hi)

/-- A relation without cycles that leads to finitely many places goes down along a rank: the number of places that can be reached. -/
theorem Acyclic.exists_rank {r : Nat → Nat → Prop} {n : Nat} (h : Acyclic r) (hbound : ∀ i j, r i j → j < n) :
    ∃ rank : Nat → Nat, (∀ i < n, rank i < n) ∧ ∀ i j, r i j → rank j < rank i := by
  classical
  let reached (i : Nat) : Finset Nat := {k ∈ Finset.range n | Relation.TransGen r i k}
  have hmem : ∀ i k, k ∈ reached i ↔ k < n ∧ Relation.TransGen r i k := fun i k => by
    rw [Finset.mem_filter, Finset.mem_range]
  refine ⟨fun i => (reached i).card, fun i hi => ?_, fun i j hij => Finset.card_lt_card ?_⟩
  · have hsub : reached i ⊂ Finset.range n := by
      refine ⟨Finset.filter_subset _ _, fun hall => ?_⟩
      exact h i ((hmem i i).1 (hall (Finset.mem_range.2 hi))).2
    exact (Finset.card_lt_card hsub).trans_eq (Finset.card_range n)
  · refine ⟨fun k hk => ?_, fun hall => ?_⟩
    · obtain ⟨hkn, hjk⟩ := (hmem j k).1 hk
      exact (hmem i k).2 ⟨hkn, hjk.head hij⟩
    · have hj : j ∈ reached i := (hmem i j).2 ⟨hbound i j hij, .single hij⟩
      exact h j ((hmem j j).1 (hall hj)).2

/-- A path that comes back to one of its places leads around a cycle. -/
theorem not_acyclic_of_isChain {r : Nat → Nat → Prop} {path : List Nat} {i : Nat} (h : (path ++ [i]).IsChain r)
    (hi : i ∈ path) : ¬Acyclic r := by
  have hall : (path ++ [i]).Pairwise (Relation.TransGen r) :=
    List.isChain_iff_pairwise.1 (h.imp fun _ _ hab => Relation.TransGen.single hab)
  exact fun hacyclic => hacyclic i ((List.pairwise_append.1 hall).2.2 i hi i List.mem_cons_self)

namespace Layout

/-! ## Containment -/

/-- A fixed struct names another in one of its fields, as the type of the field or of the elements of an array. -/
def Contains (structs : List StructDef) (i j : Nat) : Prop :=
  ∃ s, structs[i]? = some s ∧ s.fixed = true ∧
    (∃ f ∈ s.fields, (f.type.isStruct = true ∨ f.type.isArray = true) ∧ f.type.structRef = some j) ∧
    ∃ d, structs[j]? = some d ∧ d.fixed = true

/-- The parts of a struct are what its fields are or are arrays of. -/
theorem mem_parts {s : StructDef} {j : Nat} :
    j ∈ parts s ↔ ∃ f ∈ s.fields, (f.type.isStruct = true ∨ f.type.isArray = true) ∧ f.type.structRef = some j := by
  rw [parts, List.mem_filterMap]
  refine exists_congr fun f => and_congr_right fun _ => ?_
  rw [← Bool.or_eq_true]
  by_cases h : (f.type.isStruct || f.type.isArray) = true
  · rw [if_pos h, and_iff_right h]
  · rw [if_neg h]
    refine ⟨fun hnone => ?_, fun hno => absurd hno.1 h⟩
    cases hnone

/-- The structs inside a struct are those that its layout lays out first. -/
theorem contains_iff {structs : List StructDef} {i j : Nat} :
    Contains structs i j ↔ ∃ s, structs[i]? = some s ∧ s.fixed = true ∧ j ∈ fixedParts structs s := by
  refine exists_congr fun s => and_congr_right fun _ => and_congr_right fun _ => ?_
  rw [fixedParts, List.mem_filter, mem_parts]
  refine and_congr_right fun _ => ⟨?_, getElem?_of_fixedAt⟩
  rintro ⟨d, hd, hfixed⟩
  exact (fixedAt_of_getElem? hd).trans hfixed

/-- What is reported of a cycle: the names along a path of at least two structs, each of which contains the next, and the last of
which stands on the path before. -/
def ReportsCycle (structs : List StructDef) (names : List String) : Prop :=
  ∃ path i, names = (path ++ [i]).map (nameAt structs) ∧ (path ++ [i]).IsChain (Contains structs) ∧ i ∈ path

/-- A report of a cycle is right. -/
theorem ReportsCycle.not_acyclic {structs : List StructDef} {names : List String} (h : ReportsCycle structs names) :
    ¬Acyclic (Contains structs) := by
  obtain ⟨path, i, _, hchain, hi⟩ := h
  exact not_acyclic_of_isChain hchain hi

/-- Structs that can be listed so that each stands before the structs inside it contain each other without a cycle. -/
theorem Ordered.acyclic {structs : List StructDef} {order : List Nat} (h : Ordered structs order)
    (hmem : ∀ i, fixedAt structs i = true ↔ i ∈ order) : Acyclic (Contains structs) := by
  refine .of_rank (rankIn order) ?_
  intro i j hij
  obtain ⟨s, hs, hfixed, hj⟩ := contains_iff.1 hij
  exact h.rankIn_lt hs hj ((hmem i).1 ((fixedAt_of_getElem? hs).trans hfixed))

/-- Structs that contain each other without a cycle can be ranked. -/
theorem exists_ranked {structs : List StructDef} (h : Acyclic (Contains structs)) : ∃ rank, Ranked structs rank := by
  have hbound : ∀ i j, Contains structs i j → j < structs.length := by
    rintro i j ⟨_, _, _, _, _, hd, _⟩
    exact (List.getElem?_eq_some_iff.1 hd).1
  obtain ⟨rank, hlt, hpart⟩ := h.exists_rank hbound
  refine ⟨rank, fun i d hd _ => hlt i (List.getElem?_eq_some_iff.1 hd).1, ?_⟩
  intro i d hd hfixed f hf hkind j inner hj hinner hinnerFixed
  exact hpart i j ⟨d, hd, hfixed, ⟨f, hf, Bool.or_eq_true_iff.1 hkind, hj⟩, inner, hinner, hinnerFixed⟩

variable {placer : Placer} {declared : List StructDef}

/-! ## The path of a search -/

/-- The structs around a struct, outermost first: each contains the next, and none stands there twice. -/
structure Nesting (declared : List StructDef) (path : List Nat) : Prop where
  fixed : ∀ i ∈ path, fixedAt declared i = true
  chain : path.IsChain (Contains declared)
  nodup : path.Nodup

namespace Nesting

theorem nil : Nesting declared [] := ⟨fun _ hi => absurd hi List.not_mem_nil, List.IsChain.nil, List.nodup_nil⟩

/-- A path is no longer than there are structs. -/
theorem length_le {path : List Nat} (h : Nesting declared path) : path.length ≤ declared.length := by
  rw [← List.length_range (n := declared.length)]
  apply h.nodup.length_le_of_subset
  intro i hi
  obtain ⟨s, hs, _⟩ := getElem?_of_fixedAt (h.fixed i hi)
  exact List.mem_range.2 (List.getElem?_eq_some_iff.1 hs).1

/-- A struct that is not on the path yet makes it longer. -/
theorem snoc {path : List Nat} {i : Nat} (h : Nesting declared path) (hi : fixedAt declared i = true)
    (hchain : (path ++ [i]).IsChain (Contains declared)) (hnew : i ∉ path) : Nesting declared (path ++ [i]) where
  fixed k hk := by
    rcases List.mem_append.1 hk with hk | hk
    · exact h.fixed k hk
    · exact List.mem_singleton.1 hk ▸ hi
  chain := hchain
  nodup := by
    rw [List.nodup_append]
    refine ⟨h.nodup, by simp, ?_⟩
    rintro k hk _ hi rfl
    exact hnew (List.mem_singleton.1 hi ▸ hk)

/-- The path to a part of the last struct. -/
theorem chain_part {path : List Nat} {i j : Nat} (hchain : (path ++ [i]).IsChain (Contains declared))
    (hij : Contains declared i j) : (path ++ [i] ++ [j]).IsChain (Contains declared) := by
  refine List.isChain_append.2 ⟨hchain, List.isChain_singleton j, ?_⟩
  intro k hk l hl
  rw [List.getLast?_concat, Option.mem_some] at hk
  cases hl
  exact hk ▸ hij

end Nesting

/-- What the search finds at a struct that it has to lay out: the declaration, and parts that the struct contains. -/
theorem Traced.parts_of {p : Progress} (h : Traced declared p) {i : Nat} (hi : fixedAt declared i = true) (hnew : i ∉ p.done) :
    ∃ s, p.structs[i]? = some s ∧ ∀ j ∈ fixedParts p.structs s, fixedAt declared j = true ∧ Contains declared i j := by
  obtain ⟨s, hs, hsf⟩ := getElem?_of_fixedAt hi
  refine ⟨s, (h.pending i hi hnew).trans hs, fun j hj => ?_⟩
  rw [fixedParts_congr h.fixed_eq] at hj
  exact ⟨(List.mem_filter.1 hj).2, contains_iff.2 ⟨s, hs, hsf, hj⟩⟩

/-- Laying out parts can be traced. -/
theorem foldlM_placeFixed_traced (hk : placer.Keeps) {fuel : Nat} {path is : List Nat} {p q : Progress}
    (h : is.foldlM (placeFixed placer fuel path) p = .ok q) (hp : Traced declared p)
    (his : ∀ i ∈ is, fixedAt declared i = true) : Traced declared q :=
  (foldlM_run hk (placeFixed_run hk fuel path) is p q h fun i hi => (hp.fixed_eq i).trans (his i hi)).1.traced hk hp

/-- Placing a fixed struct keeps the trace. -/
theorem placeFixed_traced (hk : placer.Keeps) {fuel : Nat} {path : List Nat} {p q : Progress} {i : Nat}
    (h : placeFixed placer fuel path p i = .ok q) (hp : Traced declared p) (hi : fixedAt declared i = true) : Traced declared q :=
  (placeFixed_run hk fuel path p i q h ((hp.fixed_eq i).trans hi)).1.traced hk hp

/-! ## The depth of a search -/

/-- A bound on the depth that leaves room for all structs that are not on the path does not matter. -/
theorem placeFixed_eq_of_lt (hk : placer.Keeps) : ∀ (fuel fuel' : Nat) (path : List Nat) (p : Progress) (i : Nat),
    Traced declared p → Nesting declared path → fixedAt declared i = true → (path ++ [i]).IsChain (Contains declared) →
    declared.length < fuel + path.length → declared.length < fuel' + path.length →
    placeFixed placer fuel path p i = placeFixed placer fuel' path p i
  | 0, _, path, _, _, _, hpath, _, _, hroom, _ => by
    have := hpath.length_le
    omega
  | _ + 1, 0, path, _, _, _, hpath, _, _, _, hroom => by
    have := hpath.length_le
    omega
  | fuel + 1, fuel' + 1, path, p, i, hp, hpath, hi, hchain, hroom, hroom' => by
    by_cases hdone : i ∈ p.done
    · rw [placeFixed_of_done hdone, placeFixed_of_done hdone]
    by_cases hon : i ∈ path
    · rw [placeFixed_of_mem_path hdone hon, placeFixed_of_mem_path hdone hon]
    obtain ⟨s, hs, hparts⟩ := hp.parts_of hi hdone
    have hlonger := hpath.snoc hi hchain hon
    have hlength : (path ++ [i]).length = path.length + 1 := List.length_append
    -- the parts are laid out alike, from every state that is reached
    have hall : (fixedParts p.structs s).foldlM (placeFixed placer fuel (path ++ [i])) p =
        (fixedParts p.structs s).foldlM (placeFixed placer fuel' (path ++ [i])) p := by
      refine foldlM_congr (P := Traced declared) hp (fun j hj q hq => ?_) fun j hj q r hq hr => ?_
      · obtain ⟨hjf, hij⟩ := hparts j hj
        exact placeFixed_eq_of_lt hk fuel fuel' _ q j hq hlonger hjf (Nesting.chain_part hchain hij) (by omega) (by omega)
      · exact placeFixed_traced hk hr hq (hparts j hj).1
    rw [placeFixed_of_new hdone hon hs, placeFixed_of_new hdone hon hs, hall]

/-! ## What is reported -/

/-- Slots have nothing to do with cycles. -/
theorem placeSlots_ne_circular {table : String} {names : List String} :
    ∀ {fields : List FieldDef} {slot : Nat}, placeSlots table slot fields ≠ .error (.circular names)
  | [], _ => by
    rw [placeSlots]
    intro h
    cases h
  | f :: rest, slot => by
    rw [placeSlots]
    split
    · intro h
      cases h
    · intro h
      rcases bind_eq_error.1 h with h | ⟨_, _, h⟩
      · exact placeSlots_ne_circular h
      · cases h

/-- A search reports a cycle only where it has come around one. The induction is on the bound, which is not reached. -/
theorem placeFixed_reports (hk : placer.Keeps) : ∀ (fuel : Nat) (path : List Nat) (p : Progress) (i : Nat) (names : List String),
    Traced declared p → Nesting declared path → fixedAt declared i = true → (path ++ [i]).IsChain (Contains declared) →
    declared.length < fuel + path.length → placeFixed placer fuel path p i = .error (.circular names) →
    ReportsCycle declared names
  -- a path has no struct twice, so it is found to be a cycle before the fuel is used up
  | 0, path, _, _, _, _, hpath, _, _, hroom, _ => by
    have := hpath.length_le
    omega
  | fuel + 1, path, p, i, names, hp, hpath, hi, hchain, hroom, h => by
    by_cases hdone : i ∈ p.done
    · rw [placeFixed_of_done hdone] at h
      cases h
    by_cases hon : i ∈ path
    · rw [placeFixed_of_mem_path hdone hon] at h
      cases h
      refine ⟨path, i, List.map_congr_left fun j hj => ?_, hchain, hon⟩
      rcases List.mem_append.1 hj with hj | hj
      · exact hp.name_eq j (hpath.fixed j hj)
      · exact hp.name_eq j (List.mem_singleton.1 hj ▸ hi)
    obtain ⟨s, hs, hparts⟩ := hp.parts_of hi hdone
    rw [placeFixed_of_new hdone hon hs] at h
    rcases bind_eq_error.1 h with h | ⟨q, _, h⟩
    · -- one of the parts fails, from a state in which the parts before it are laid out
      obtain ⟨before, j, after, q, hsplit, hbefore, hj⟩ := foldlM_eq_error h
      have hparts' : ∀ k ∈ before ++ j :: after, fixedAt declared k = true ∧ Contains declared i k := hsplit ▸ hparts
      obtain ⟨hjf, hij⟩ := hparts' j (List.mem_append_right _ List.mem_cons_self)
      have hq := foldlM_placeFixed_traced hk hbefore hp fun k hk => (hparts' k (List.mem_append_left _ hk)).1
      have hlength : (path ++ [i]).length = path.length + 1 := List.length_append
      exact placeFixed_reports hk fuel _ q j names hq (hpath.snoc hi hchain hon) hjf (Nesting.chain_part hchain hij) (by omega) hj
    · rcases bind_eq_error.1 h with h | ⟨_, _, h⟩
      · exact absurd h hk.reports
      · cases h

/-- A reason to refuse structs: a cycle, a struct that cannot be laid out, or a table that has too many fields. -/
def Refusal (placer : Placer) (e : LoadError) : Prop :=
  (∃ names, e = .circular names) ∨ (∃ structs s, placer structs s = .error e) ∨
    ∃ s : StructDef, placeSlots s.name 0 s.fields = .error e

/-- A search fails for no other reason. -/
theorem placeFixed_refusal : ∀ (fuel : Nat) (path : List Nat) (p : Progress) (i : Nat) (e : LoadError),
    placeFixed placer fuel path p i = .error e → Refusal placer e
  | 0, _, _, _, _, h => by
    cases h
    exact .inl ⟨_, rfl⟩
  | fuel + 1, path, p, i, e, h => by
    by_cases hdone : i ∈ p.done
    · rw [placeFixed_of_done hdone] at h
      cases h
    by_cases hon : i ∈ path
    · rw [placeFixed_of_mem_path hdone hon] at h
      cases h
      exact .inl ⟨_, rfl⟩
    cases hs : p.structs[i]? with
    | none =>
      rw [placeFixed, if_neg (fun hc => hdone (List.contains_iff_mem.1 hc)), if_neg (fun hc => hon (List.contains_iff_mem.1 hc))] at h
      simp only [hs] at h
      cases h
    | some s =>
      rw [placeFixed_of_new hdone hon hs] at h
      rcases bind_eq_error.1 h with h | ⟨q, _, h⟩
      · obtain ⟨_, j, _, q, _, _, hj⟩ := foldlM_eq_error h
        exact placeFixed_refusal fuel _ q j e hj
      · rcases bind_eq_error.1 h with h | ⟨_, _, h⟩
        · exact .inr (.inl ⟨_, _, h⟩)
        · cases h

/-! ## The whole layout -/

/-- Placing a fixed struct starts a walk with an empty path. -/
theorem place_of_fixed {p : Progress} {i : Nat} (hp : Traced declared p) (hi : fixedAt declared i = true) :
    place placer p i = placeFixed placer (declared.length + 1) [] p i := by
  obtain ⟨s, hs, hsf⟩ := getElem?_of_fixedAt ((hp.fixed_eq i).trans hi)
  unfold place
  simp only [hs, if_pos hsf, hp.length_eq]

/-- A turn that fails: below a fixed struct, or at the fields of a table. -/
theorem place_eq_error {p : Progress} {i : Nat} {e : LoadError} (h : place placer p i = .error e) :
    ∃ s, p.structs[i]? = some s ∧
      (s.fixed = true ∧ placeFixed placer (p.structs.length + 1) [] p i = .error e ∨
        s.fixed = false ∧ placeSlots s.name 0 s.fields = .error e) := by
  unfold place at h
  split at h
  · cases h
  · next s hs =>
    refine ⟨s, hs, ?_⟩
    by_cases hsf : s.fixed = true
    · rw [if_pos hsf] at h
      exact .inl ⟨hsf, h⟩
    · rw [if_neg hsf] at h
      rcases bind_eq_error.1 h with h | ⟨_, _, h⟩
      · exact .inr ⟨Bool.eq_false_iff.2 hsf, h⟩
      · cases h

/-- A layout that fails has gone well up to some turn, and fails there. -/
theorem placeAllBy_eq_error (hk : placer.Keeps) {e : LoadError} (h : placeAllBy placer declared = .error e) :
    ∃ p i, Traced declared p ∧ place placer p i = .error e := by
  rcases bind_eq_error.1 h with h | ⟨_, _, h⟩
  · obtain ⟨before, i, after, p, hsplit, hbefore, hi⟩ := foldlM_eq_error h
    have hlength := congrArg List.length hsplit
    rw [List.length_range, List.length_append] at hlength
    have hturns : before = List.range before.length := by
      have htake := congrArg (List.take before.length) hsplit
      rw [List.take_left, List.take_range, Nat.min_eq_left (by omega)] at htake
      exact htake.symm
    rw [hturns] at hbefore
    exact ⟨p, i, (foldlM_place_traced hk (by omega) hbefore).1, hi⟩
  · cases h

/-- A layout reports no cycle but one that it has come around. -/
theorem placeAllBy_reports (hk : placer.Keeps) {names : List String} (h : placeAllBy placer declared = .error (.circular names)) :
    ReportsCycle declared names := by
  obtain ⟨p, i, hp, hi⟩ := placeAllBy_eq_error hk h
  obtain ⟨s, hs, ⟨hsf, hsearch⟩ | ⟨_, hslots⟩⟩ := place_eq_error hi
  · have hfixed : fixedAt declared i = true := by rw [← hp.fixed_eq, fixedAt_of_getElem? hs, hsf]
    rw [hp.length_eq] at hsearch
    exact placeFixed_reports hk _ [] p i names hp .nil hfixed (List.isChain_singleton i) (Nat.lt_succ_self _) hsearch
  · exact absurd hslots placeSlots_ne_circular

/-- A layout is refused for a cycle, or for what its way of placing refuses. -/
theorem placeAllBy_refusal (hk : placer.Keeps) {e : LoadError} (h : placeAllBy placer declared = .error e) : Refusal placer e := by
  obtain ⟨p, i, _, hi⟩ := placeAllBy_eq_error hk h
  obtain ⟨s, _, ⟨_, hsearch⟩ | ⟨_, hslots⟩⟩ := place_eq_error hi
  · exact placeFixed_refusal _ _ p i e hsearch
  · exact .inr (.inr ⟨s, hslots⟩)

/-- Structs that can be laid out contain each other without a cycle. -/
theorem acyclic_of_placeAllBy (hk : placer.Keeps) {structs : List StructDef} (h : placeAllBy placer declared = .ok structs) :
    Acyclic (Contains declared) := by
  obtain ⟨order, hord, hmem⟩ := placeAllBy_ordered hk h
  exact hord.acyclic hmem

/-- Laying out structs ends, and it tells cycles, whichever way a single struct is laid out. Whenever the turn of a fixed struct comes,
the search below it gives the same with any bound on its depth above the number of structs, so it ends by itself. If the structs
contain each other in a cycle the layout is refused: the cycle is reported, unless a definition cannot be laid out. If they do not, no
cycle is reported. What is reported is a path of at least two names along which each struct contains the next, and the last name
stands on the path before. -/
theorem placeAllBy_cycles (placer : Placer) (hk : placer.Keeps) (declared : List StructDef) :
    (∀ i p, (List.range i).foldlM (place placer) { structs := declared, done := [] } = .ok p → fixedAt declared i = true →
      ∀ bound, declared.length < bound → place placer p i = placeFixed placer bound [] p i) ∧
    (¬Acyclic (Contains declared) → ∃ e, placeAllBy placer declared = .error e ∧ Refusal placer e) ∧
    (Acyclic (Contains declared) → ∀ names, placeAllBy placer declared ≠ .error (.circular names)) ∧
    ∀ names, placeAllBy placer declared = .error (.circular names) → 2 ≤ names.length ∧ ReportsCycle declared names := by
  refine ⟨fun i p h hi bound hbound => ?_, fun hcyclic => ?_, fun hacyclic names h => ?_, fun names h => ?_⟩
  · obtain ⟨s, hs, _⟩ := getElem?_of_fixedAt hi
    obtain ⟨hp, _⟩ := foldlM_place_traced hk (Nat.le_of_lt (List.getElem?_eq_some_iff.1 hs).1) h
    rw [place_of_fixed hp hi]
    exact placeFixed_eq_of_lt hk _ bound [] p i hp .nil hi (List.isChain_singleton i) (Nat.lt_succ_self _) hbound
  · cases hall : placeAllBy placer declared with
    | error e => exact ⟨e, rfl, placeAllBy_refusal hk hall⟩
    | ok structs => exact absurd (acyclic_of_placeAllBy hk hall) hcyclic
  · exact (placeAllBy_reports hk h).not_acyclic hacyclic
  · have hreports := placeAllBy_reports hk h
    refine ⟨?_, hreports⟩
    obtain ⟨path, i, rfl, _, hi⟩ := hreports
    have hpos := List.length_pos_of_mem hi
    rw [List.length_map, List.length_append, List.length_singleton]
    omega

/-- A layout in which sizes wrap around at some number. -/
def wrapping (limit : Nat) : Placer := fun structs s => do
  let d ← placeStruct structs s
  return { d with byteSize := d.byteSize % limit }

/-- A layout in which structs of some size and above are refused. -/
def refusing (limit : Nat) : Placer := fun structs s => do
  let d ← placeStruct structs s
  if d.byteSize < limit then return d else .error (.violation (.largeStruct s.name))

/-- A layout in which sizes wrap around keeps what other structs may ask. -/
theorem wrapping_keeps (limit : Nat) : (wrapping limit).Keeps where
  fixed h := by
    obtain ⟨d, hd, h⟩ := bind_eq_ok.1 h
    cases h
    have hfixed := placeStruct_keeps.fixed hd
    exact hfixed
  name h := by
    obtain ⟨d, hd, h⟩ := bind_eq_ok.1 h
    cases h
    have hname := placeStruct_keeps.name hd
    exact hname
  reports h := by
    rcases bind_eq_error.1 h with h | ⟨_, _, h⟩
    · exact placeStruct_ne_circular h
    · cases h

/-- A layout in which large structs are refused keeps what other structs may ask. -/
theorem refusing_keeps (limit : Nat) : (refusing limit).Keeps where
  fixed h := by
    obtain ⟨d, hd, h⟩ := bind_eq_ok.1 h
    obtain ⟨_, h⟩ := ite_error_eq_ok.1 h
    cases h
    exact placeStruct_keeps.fixed hd
  name h := by
    obtain ⟨d, hd, h⟩ := bind_eq_ok.1 h
    obtain ⟨_, h⟩ := ite_error_eq_ok.1 h
    cases h
    exact placeStruct_keeps.name hd
  reports h := by
    rcases bind_eq_error.1 h with h | ⟨_, _, h⟩
    · exact placeStruct_ne_circular h
    · split at h <;> cases h

/-- Arrays of structs in arrays of structs, the last of which has more than 64 bits in the number of its bytes, and behind them two
structs that contain each other. -/
def nestedStructs : List StructDef := [
  { name := "A", fixed := true, fields := [{ name := "a", type := .arrayOf (.plain .ubyte) 65535 }] },
  { name := "B", fixed := true, fields := [{ name := "b", type := .arrayOf (.record 0) 65535 }] },
  { name := "C", fixed := true, fields := [{ name := "c", type := .arrayOf (.record 1) 65535 }] },
  { name := "D", fixed := true, fields := [{ name := "d", type := .arrayOf (.record 2) 65535 }] },
  { name := "F", fixed := true, fields := [{ name := "f", type := .arrayOf (.record 3) 65535 }] },
  { name := "X", fixed := true, fields := [{ name := "y", type := .record 6 }] },
  { name := "Y", fixed := true, fields := [{ name := "xs", type := .arrayOf (.record 5) 2 }] }]

/-- The cycle is reported where sizes are not bounded and where they wrap around, and the layout is refused before it comes to the
cycle where they are bounded. -/
theorem nestedStructs_cycles : placeAll nestedStructs = .error (.circular ["X", "Y", "X"]) ∧
    placeAllBy (wrapping (Nat.pow 2 64)) nestedStructs = .error (.circular ["X", "Y", "X"]) ∧
    placeAllBy (refusing (Nat.pow 2 64)) nestedStructs = .error (.violation (.largeStruct "F")) ∧
    ReportsCycle nestedStructs ["X", "Y", "X"] ∧ Refusal (refusing (Nat.pow 2 64)) (.violation (.largeStruct "F")) := by
  have hplain : placeAllBy placeStruct nestedStructs = .error (.circular ["X", "Y", "X"]) := by decide +kernel
  have hwrapping : placeAllBy (wrapping (Nat.pow 2 64)) nestedStructs = .error (.circular ["X", "Y", "X"]) := by decide +kernel
  have hrefusing : placeAllBy (refusing (Nat.pow 2 64)) nestedStructs = .error (.violation (.largeStruct "F")) := by decide +kernel
  have hreports := ((placeAllBy_cycles _ (wrapping_keeps (Nat.pow 2 64)) nestedStructs).2.2.2 _ hwrapping).2
  refine ⟨hplain, hwrapping, hrefusing, ((placeAllBy_cycles _ placeStruct_keeps nestedStructs).2.2.2 _ hplain).2, ?_⟩
  obtain ⟨e, he, hrefusal⟩ := (placeAllBy_cycles _ (refusing_keeps (Nat.pow 2 64)) nestedStructs).2.1 hreports.not_acyclic
  rw [hrefusing] at he
  cases he
  exact hrefusal

end Layout

end FlatSchema
