import FlatSchema.Proofs.WriterGrowth
import FlatSchema.Target.GoPackage
import Mathlib.Tactic.Tauto

/-!
# Import statements

The import statements of a file are read back from its text: they state the imports that they were made of, whether these stand one
by one or in a group (`mem_readImports`). An import that has a line break is stated by no text (`noBreak_of_mem_importsOf`).
-/

namespace FlatSchema.Go

open Code

/-- The imports that some lines state: one behind the word, or several in a group, each behind a tab. -/
def importsOf : Bool → List (List Char) → List String
  | _, [] => []
  | false, l :: ls =>
    if l = "import (".toList then importsOf true ls
    else if "import ".toList.isPrefixOf l then String.ofList (l.drop 7) :: importsOf false ls
    else importsOf false ls
  | true, ('\t' :: item) :: ls => String.ofList item :: importsOf true ls
  | true, [')'] :: ls => importsOf false ls
  | true, _ :: ls => importsOf true ls

/-- The imports that a text states. -/
def readImports (text : String) : List String := importsOf false (text.toList.splitOn '\n')

/-- What is read is a line. -/
theorem noBreak_of_mem_importsOf {item : String} {group : Bool} {ls : List (List Char)} (hls : ∀ l ∈ ls, '\n' ∉ l)
    (h : item ∈ importsOf group ls) : '\n' ∉ item.toList := by
  fun_induction importsOf group ls with
  | case1 => exact absurd h List.not_mem_nil
  | case2 ls ih => exact ih (List.forall_mem_cons.1 hls).2 h
  | case3 l ls _ _ ih =>
    obtain ⟨hl, hls⟩ := List.forall_mem_cons.1 hls
    rcases List.mem_cons.1 h with rfl | h
    · rw [String.toList_ofList]
      exact fun hmem => hl (List.mem_of_mem_drop hmem)
    · exact ih hls h
  | case4 l ls _ _ ih => exact ih (List.forall_mem_cons.1 hls).2 h
  | case5 i ls ih =>
    obtain ⟨hl, hls⟩ := List.forall_mem_cons.1 hls
    rcases List.mem_cons.1 h with rfl | h
    · rw [String.toList_ofList]
      exact fun hmem => hl (List.mem_cons_of_mem _ hmem)
    · exact ih hls h
  | case6 ls ih => exact ih (List.forall_mem_cons.1 hls).2 h
  | case7 l ls _ _ ih => exact ih (List.forall_mem_cons.1 hls).2 h

/-- An import that fits in a line: it has no line break and ends with a quote. -/
structure Statable (item : String) : Prop where
  noBreak : '\n' ∉ item.toList
  quoted : item.toList.getLast? = some '"'

theorem Statable.ne_empty {item : String} (h : Statable item) : item ≠ "" := by
  rintro rfl
  exact absurd h.quoted (by simp)

/-- An item with a word in front is a plain line. -/
theorem Statable.plain {item : String} (h : Statable item) (lead : String) (hlead : '\n' ∉ lead.toList) :
    Step.Plain (.line { text := lead ++ item }) := by
  constructor
  · rw [String.toList_append, List.mem_append]
    exact fun hmem => hmem.elim hlead h.noBreak
  · rw [String.toList_append, List.getLast?_append, h.quoted]
    simp

/-- The lines of a group are its items. -/
theorem importsOf_lines {items : List String} (rest : List (List Char)) :
    importsOf true (items.map (fun i => '\t' :: i.toList) ++ rest) = items ++ importsOf true rest := by
  induction items with
  | nil => rfl
  | cons i items ih => simp [importsOf, ih]

/-- A statement of its own has its item behind the word. -/
theorem importsOf_import {item : String} (h : ['"'] <+: item.toList) (ls : List (List Char)) :
    importsOf false (("import " ++ item).toList :: ls) = item :: importsOf false ls := by
  obtain ⟨tail, htail⟩ := h
  have hitem : String.ofList ('"' :: tail) = item := by rw [← List.singleton_append, htail, String.ofList_toList]
  rw [importsOf, String.toList_append, ← htail]
  simp [hitem]

/-- Statements of their own are read one after the other. -/
theorem importsOf_imports (rest : List (List Char)) : ∀ {items : List String}, (∀ i ∈ items, ['"'] <+: i.toList) →
    importsOf false (items.flatMap (fun i => [("import " ++ i).toList, []]) ++ rest) = items ++ importsOf false rest
  | [], _ => rfl
  | i :: items, h => by
    obtain ⟨hi, hitems⟩ := List.forall_mem_cons.1 h
    have hblank : ∀ ls, importsOf false ([] :: ls) = importsOf false ls := fun _ => rfl
    rw [List.flatMap_cons, List.append_assoc, List.cons_append, importsOf_import hi, List.singleton_append, hblank,
      importsOf_imports rest hitems, List.cons_append]

/-- The lines of some items are clean. -/
theorem Statable.clean {items : List String} (h : ∀ i ∈ items, Statable i) : ∀ s ∈ texts items, s.Clean := by
  intro s hs
  obtain ⟨i, hi, rfl⟩ := List.mem_map.1 hs
  have hplain := (h i hi).plain "" (by simp)
  rwa [String.empty_append] at hplain

/-- The items of a group are indented. -/
theorem Statable.lines {items : List String} (h : ∀ i ∈ items, Statable i) :
    items.map (fun i => if i.isEmpty then "" else String.join (List.replicate 1 "\t") ++ i) = items.map ("\t" ++ ·) := by
  refine List.map_congr_left fun i hi => ?_
  rw [if_neg (by simp [(h i hi).ne_empty])]
  rfl

/-- Statements of their own are read as their items. -/
theorem readImports_single {items : List String} (h : ∀ i ∈ items, Statable i) (hquoted : ∀ i ∈ items, ['"'] <+: i.toList) :
    readImports (Writer.render "\t" (items.flatMap fun i => line s!"import {i}" ++ blank)) = items := by
  have hclean : ∀ s ∈ items.flatMap (fun i => line s!"import {i}" ++ blank), s.Clean := by
    intro s hs
    obtain ⟨i, hi, hs⟩ := List.mem_flatMap.1 hs
    rcases List.mem_append.1 hs with hs | hs
    · rw [List.mem_singleton.1 hs]
      exact (h i hi).plain "import " (by simp)
    · rw [List.mem_singleton.1 hs]
      exact ⟨by simp, by simp⟩
  have hlayout : ∀ is : List String, Code.layout "\t" 0 (is.flatMap fun i => line s!"import {i}" ++ blank) =
      is.flatMap fun i => ["import " ++ i, ""] := by
    intro is
    induction is with
    | nil => rfl
    | cons i is ih =>
      simp only [List.flatMap_cons, ← ih]
      rfl
  rw [readImports, Writer.splitOn_render hclean (by simp), hlayout, List.map_flatMap]
  exact (importsOf_imports [[]] hquoted).trans (List.append_nil _)

/-- A group is read as its items, whether or not there is a gap in it. -/
theorem readImports_group {as bs : List String} (has : ∀ i ∈ as, Statable i) (hbs : ∀ i ∈ bs, Statable i) (gap : Bool) :
    readImports (Writer.render "\t" (block "import (" (texts as ++ (when gap blank ++ texts bs)) ")" ++ blank)) = as ++ bs := by
  have hsplit : block "import (" (texts as ++ (when gap blank ++ texts bs)) ")" ++ blank =
      .line "import (" :: .indent :: (texts as ++ (when gap blank ++ (texts bs ++ [.dedent, .line ")", .line ""]))) := by
    simp [block, nested, indented, line, blank]
  have hclean : ∀ s ∈ Step.line "import (" :: .indent ::
      (texts as ++ (when gap blank ++ (texts bs ++ [.dedent, .line ")", .line ""]))), s.Clean := by
    have hgap : ∀ s ∈ when gap blank, s.Clean := by
      cases gap <;> simp [when, blank, Step.Clean, Step.Plain]
    simp only [List.forall_mem_cons, List.forall_mem_append]
    refine ⟨?_, trivial, Statable.clean has, hgap, Statable.clean hbs, trivial, ?_⟩ <;> simp [Step.Clean, Step.Plain]
  have hlayout : layout "\t" 0 (.line "import (" :: .indent ::
      (texts as ++ (when gap blank ++ (texts bs ++ [.dedent, .line ")", .line ""])))) =
      "import (" :: (as.map ("\t" ++ ·) ++ ((if gap then [""] else []) ++ (bs.map ("\t" ++ ·) ++ [")", ""]))) := by
    have hrest : layout "\t" 1 (texts bs ++ [.dedent, .line ")", .line ""]) = bs.map ("\t" ++ ·) ++ [")", ""] := by
      rw [layout_texts_append, Statable.lines hbs]
      rfl
    rw [layout, layout, layout_texts_append, Statable.lines has, ← hrest]
    cases gap <;> rfl
  have htabs : ∀ is : List String, (is.map ("\t" ++ ·)).map String.toList = is.map fun i => '\t' :: i.toList := by
    intro is
    simp
  have hopen : ∀ ls, importsOf false ("import (".toList :: ls) = importsOf true ls := fun _ => if_pos rfl
  have hgap : ∀ ls, importsOf true ((if gap then [""] else []).map String.toList ++ ls) = importsOf true ls := by
    intro ls
    cases gap <;> rfl
  have hclose : importsOf true ([")", ""].map String.toList ++ [[]]) = [] := rfl
  rw [hsplit, readImports, Writer.splitOn_render hclean (by simp), hlayout, List.map_cons, List.cons_append, hopen]
  simp only [List.map_append, htabs, List.append_assoc]
  rw [importsOf_lines, hgap, importsOf_lines, hclose, List.append_nil]

/-- The body of a group as two lists of lines. -/
theorem group_eq (standard packages : List String) (runtime : Bool) :
    texts standard ++ when runtime (line runtimeImport) ++ when (!packages.isEmpty) (blank ++ texts packages) =
      texts (standard ++ if runtime then [runtimeImport] else []) ++ (when (!packages.isEmpty) blank ++ texts packages) := by
  have hpackages : when (!packages.isEmpty) (blank ++ texts packages) = when (!packages.isEmpty) blank ++ texts packages := by
    cases packages <;> rfl
  rw [hpackages]
  cases runtime <;> simp [texts, when, line]

/-- The import statements state the imports that they are made of. -/
theorem mem_readImports {imports : List String} (h : ∀ item ∈ imports, Statable item) {item : String} :
    item ∈ readImports (Writer.render "\t" (importLines imports)) ↔ item ∈ imports := by
  have hstandard : ∀ i ∈ imports.filter (·.startsWith "\""), ['"'] <+: i.toList := by
    intro i hi
    simpa using (List.mem_filter.1 hi).2
  have hstatable : ∀ {p : String → Bool}, ∀ i ∈ imports.filter p, Statable i := fun i hi => h i (List.mem_filter.1 hi).1
  -- The standard library, the runtime library and the packages share out the imports.
  have hshare : item ∈ imports ↔ item ∈ imports.filter (·.startsWith "\"") ∨
      item ∈ (if imports.contains runtimeImport then [runtimeImport] else []) ∨
      item ∈ imports.filter fun i => !i.startsWith "\"" && i ≠ runtimeImport := by
    by_cases hruntime : item = runtimeImport
    · simp only [hruntime, List.mem_filter, List.mem_ite_nil_right, List.mem_singleton, List.contains_iff_mem]
      tauto
    · by_cases hquote : item.startsWith "\"" = true <;> simp [hquote, hruntime]
  rw [hshare]
  unfold importLines
  dsimp only
  split
  next hfew =>
    rw [Bool.and_eq_true, Bool.not_eq_true', List.isEmpty_iff] at hfew
    rw [readImports_single hstatable hstandard, hfew.1, hfew.2]
    simp
  next =>
    rw [group_eq, readImports_group _ hstatable, List.mem_append, List.mem_append, or_assoc]
    intro i hi
    rcases List.mem_append.1 hi with hi | hi
    · exact hstatable i hi
    · split at hi
      next hruntime =>
        rw [List.mem_singleton.1 hi]
        exact h _ (List.contains_iff_mem.1 hruntime)
      next => exact absurd hi List.not_mem_nil

end FlatSchema.Go
