import FlatSchema.Proofs.Paths
import Mathlib.Data.List.Dedup
import Mathlib.Logic.Relation

/-!
# Files in memory

Paths are kept apart by their parts, and two paths have the same parts exactly when repeated separators, dots behind the start and
a separator at the end make all the difference between them (`Path.parts_eq_iff`).

The paths of the files in memory are put in order as paths alone are (`MemoryFiles.paths_saveAll`), so the first path to a place
stays there (`Path.mem_foldl_insertSorted_iff`), while the contents are those of the last save (`MemoryFiles.get?_saveAll`).
-/

namespace FlatSchema.Path

/-! ## Spellings of a path -/

/-- A path is the other one with something in it that does not count. -/
inductive Respelled : String → String → Prop
  | separator (a b : String) : Respelled (a ++ "//" ++ b) (a ++ "/" ++ b)
  | dot (a b : String) : Respelled (a ++ "/./" ++ b) (a ++ "/" ++ b)
  | dotAtEnd (a : String) : Respelled (a ++ "/.") (a ++ "/")
  | separatorAtEnd {a : String} (hne : a ≠ "") : Respelled (a ++ "/") a

theorem append_separators (a b : String) : a ++ "//" ++ b = a ++ "/" ++ (String.ofList [] ++ "/" ++ b) := by
  simp [← String.toList_inj]

theorem append_dot (a b : String) : a ++ "/./" ++ b = a ++ "/" ++ (String.ofList ['.'] ++ "/" ++ b) := by
  simp [← String.toList_inj]

/-- Of what follows a separator only the pieces count. -/
theorem parts_append_separator_append (a b : String) :
    parts (a ++ "/" ++ b) = parts (a ++ "/") ++ pieceParts (b.toList.splitOn '/') :=
  parts_append_of_separator (by simp) b

/-- A piece that is ignored may be left out. -/
theorem parts_append_piece (a : String) {piece : List Char} (hpiece : pieceParts (piece.splitOn '/') = []) (b : String) :
    parts (a ++ "/" ++ (String.ofList piece ++ "/" ++ b)) = parts (a ++ "/" ++ b) := by
  have hchars : (String.ofList piece ++ "/" ++ b).toList = piece ++ '/' :: b.toList := by simp
  rw [parts_append_separator_append, parts_append_separator_append, hchars, List.splitOn_append_cons_self, pieceParts_append,
    hpiece, List.nil_append]

/-- Respelling a path keeps its parts. -/
theorem Respelled.parts_eq {a b : String} (h : Respelled a b) : parts a = parts b := by
  cases h with
  | separator a b =>
    rw [append_separators]
    exact parts_append_piece a rfl b
  | dot a b =>
    rw [append_dot]
    exact parts_append_piece a rfl b
  | dotAtEnd a =>
    have htext : a ++ "/." = a ++ "/" ++ "." := by simp [← String.toList_inj]
    rw [htext, parts_append_separator_append]
    exact List.append_nil _
  | separatorAtEnd hne =>
    have hparts := parts_append_separator hne ""
    rw [String.append_empty] at hparts
    exact hparts.trans (List.append_nil _)

/-- The text of a part. -/
def Part.text : Part → String
  | .root => "/"
  | .current => "."
  | .parent => ".."
  | .normal name => name

/-- A path with some parts below it. -/
def below (front : String) (rest : List Part) : String := rest.foldl (fun path part => path ++ "/" ++ part.text) front

/-- One path for each list of parts. -/
def spelling : List Part → String
  | [] => ""
  | first :: rest => below first.text rest

/-- A piece that is a part gives its text. -/
theorem pieceParts_cons_of_part {piece : List Char} (h : ignorable piece = false) (pieces : List (List Char)) :
    ∃ part : Part, part.text = String.ofList piece ∧ pieceParts (piece :: pieces) = part :: pieceParts pieces := by
  refine ⟨if piece = ['.', '.'] then .parent else .normal (String.ofList piece), ?_, ?_⟩
  · split
    next heq => rw [heq]; rfl
    next => rfl
  · rw [pieceParts, List.filter_cons_of_pos (by simp [h])]
    rfl

/-- Pieces that are ignored have no part. -/
theorem pieceParts_cons_of_ignorable {piece : List Char} (h : ignorable piece = true) (pieces : List (List Char)) :
    pieceParts (piece :: pieces) = pieceParts pieces := by
  rw [pieceParts, List.filter_cons_of_neg (by simp [h])]
  rfl

/-- The two pieces that are ignored: nothing, and the current directory. -/
theorem ignorable_cases {piece : List Char} (h : ignorable piece = true) : piece = [] ∨ piece = ['.'] := by
  rwa [ignorable, Bool.or_eq_true, List.isEmpty_iff, beq_iff_eq] at h

/-- A separator behind a path, and a piece behind that which is no part, can go. -/
theorem eqvGen_ignorable {front : String} (hfront : front ≠ "") {piece : List Char} (h : ignorable piece = true) :
    Relation.EqvGen Respelled (front ++ "/" ++ String.ofList piece) front := by
  have hend : Relation.EqvGen Respelled (front ++ "/") front := .rel _ _ (.separatorAtEnd hfront)
  rcases ignorable_cases h with rfl | rfl
  · exact String.append_empty ▸ hend
  · exact .trans _ _ _ (.rel _ _ (String.append_assoc ▸ .dotAtEnd front)) hend

/-- A piece between separators that is no part can go with one of them. -/
theorem respelled_ignorable (front : String) {piece : List Char} (h : ignorable piece = true) (rest : String) :
    Respelled (front ++ "/" ++ (String.ofList piece ++ "/" ++ rest)) (front ++ "/" ++ rest) := by
  rcases ignorable_cases h with rfl | rfl
  · exact append_separators front rest ▸ .separator front rest
  · exact append_dot front rest ▸ .dot front rest

/-- The text of pieces behind a path is a spelling of their parts. -/
theorem eqvGen_below : ∀ (piece : List Char) (pieces : List (List Char)) {front : String}, front ≠ "" →
    Relation.EqvGen Respelled (front ++ "/" ++ "/".intercalate ((piece :: pieces).map String.ofList))
      (below front (pieceParts (piece :: pieces)))
  | piece, [], front, hfront => by
    rw [List.map_singleton, String.intercalate_singleton]
    cases hpiece : ignorable piece with
    | true =>
      rw [pieceParts_cons_of_ignorable hpiece]
      exact eqvGen_ignorable hfront hpiece
    | false =>
      obtain ⟨part, htext, hparts⟩ := pieceParts_cons_of_part hpiece []
      rw [hparts, ← htext]
      exact .refl _
  | piece, next :: rest, front, hfront => by
    rw [List.map_cons, List.map_cons, String.intercalate_cons_cons, ← List.map_cons]
    cases hpiece : ignorable piece with
    | true =>
      rw [pieceParts_cons_of_ignorable hpiece]
      exact .trans _ _ _ (.rel _ _ (respelled_ignorable front hpiece _)) (eqvGen_below next rest hfront)
    | false =>
      obtain ⟨part, htext, hparts⟩ := pieceParts_cons_of_part hpiece (next :: rest)
      have hfront' : front ++ "/" ++ part.text ≠ "" := fun hempty => by simpa using congrArg String.toList hempty
      rw [hparts, ← htext, ← String.append_assoc, ← String.append_assoc]
      exact eqvGen_below next rest hfront'

theorem intercalate_splitOn (s : List Char) : "/".intercalate ((s.splitOn '/').map String.ofList) = String.ofList s := by
  rw [← String.toList_inj, toList_intercalate_pieces, List.intercalate_splitOn, String.toList_ofList]

/-- What follows a separator behind a path is a spelling of its parts. -/
theorem eqvGen_append (front : String) (hfront : front ≠ "") (s : List Char) :
    Relation.EqvGen Respelled (front ++ "/" ++ String.ofList s) (below front (pieceParts (s.splitOn '/'))) := by
  obtain ⟨piece, pieces, hsplit⟩ := List.exists_cons_of_ne_nil (List.splitOn_ne_nil '/' s)
  rw [← intercalate_splitOn, hsplit]
  exact eqvGen_below piece pieces hfront

/-- Every path can be respelled to the one that is made of its parts. -/
theorem eqvGen_spelling (path : String) : Relation.EqvGen Respelled path (spelling (parts path)) := by
  rcases start_cases path.toList with ⟨rest, hs⟩ | hs | ⟨rest, hs⟩ | hbare
  · -- with its separator written twice, the root is a path in front of a separator
    obtain rfl : path = "" ++ "/" ++ String.ofList rest := by simp [← String.toList_inj, hs]
    rw [parts_eq, headAndPieces_of_root hs]
    exact .trans _ _ _ (.symm _ _ (.rel _ _ (.separator "" (String.ofList rest)))) (eqvGen_append "/" (by decide) rest)
  · obtain rfl : path = "." := String.toList_inj.1 hs
    exact .refl _
  · obtain rfl : path = "." ++ "/" ++ String.ofList rest := by simp [← String.toList_inj, hs]
    rw [parts_eq, headAndPieces_of_below hs]
    exact eqvGen_append "." (by decide) rest
  · by_cases hempty : path = ""
    · subst hempty
      exact .refl _
    · obtain ⟨first, rest, hsplit, hfirst⟩ := hbare.pieces fun hnil => hempty (String.toList_eq_nil_iff.1 hnil)
      obtain ⟨part, htext, hparts⟩ := pieceParts_cons_of_part hfirst rest
      have hpath := intercalate_splitOn path.toList
      rw [String.ofList_toList, hsplit] at hpath
      rw [parts_of_bare hbare, hsplit, hparts, ← hpath, spelling]
      cases rest with
      | nil =>
        rw [List.map_singleton, String.intercalate_singleton, ← htext]
        exact .refl _
      | cons next rest =>
        rw [List.map_cons, List.map_cons, String.intercalate_cons_cons, ← List.map_cons, ← htext]
        refine eqvGen_below next rest fun hnil => ?_
        rw [hnil] at htext
        rw [String.ofList_eq_empty_iff.1 htext.symm] at hfirst
        cases hfirst

/-- Paths have the same parts exactly when they are spellings of each other. -/
theorem parts_eq_iff {a b : String} : parts a = parts b ↔ Relation.EqvGen Respelled a b := by
  constructor
  · intro h
    have hb := eqvGen_spelling b
    rw [← h] at hb
    exact .trans _ _ _ (eqvGen_spelling a) (.symm _ _ hb)
  · intro h
    induction h with
    | rel a b h => exact h.parts_eq
    | refl a => rfl
    | symm a b _ ih => exact ih.symm
    | trans a b c _ _ hab hbc => exact hab.trans hbc

/-! ## The first path to a place -/

/-- A path is put in unless a path to the same place is there. -/
theorem mem_insertSorted_iff {path q : String} : ∀ {paths : List String}, Sorted paths →
    (q ∈ insertSorted path paths ↔ q ∈ paths ∨ q = path ∧ ∀ p ∈ paths, parts path ≠ parts p)
  | [], _ => by simp [insertSorted]
  | p :: rest, h => by
    obtain ⟨hp, hrest⟩ := List.pairwise_cons.1 h
    rw [insertSorted]
    split
    next hlt =>
      -- all paths that are there come behind
      have hnew : ∀ p' ∈ p :: rest, parts path ≠ parts p' := by
        intro p' hp'
        rcases List.mem_cons.1 hp' with rfl | hp'
        · exact parts_ne_of_lt hlt
        · exact parts_ne_of_lt (comparePartLists_trans hlt (hp p' hp'))
      rw [List.mem_cons, or_comm, and_iff_left hnew]
    next heq =>
      have hsame : parts path = parts p := comparePartLists_eq_iff.1 heq
      simp [hsame]
    next hgt =>
      have hdiff : parts path ≠ parts p := parts_ne_of_compare (by rw [hgt]; decide)
      simp only [List.mem_cons, mem_insertSorted_iff hrest, forall_eq_or_imp, or_assoc, ne_eq, hdiff, not_false_iff, true_and]

/-- Of paths that are put in order one after the other, the first to each place stays. -/
theorem mem_foldl_insertSorted_iff {q : String} : ∀ (paths : List String) {known : List String}, Sorted known →
    (q ∈ paths.foldl (fun known p => insertSorted p known) known ↔
      q ∈ known ∨ (∀ p ∈ known, parts q ≠ parts p) ∧ paths.find? (fun p => parts p = parts q) = some q)
  | [], known, _ => by simp
  | p :: rest, known, h => by
    have hplaces : (∀ p' ∈ insertSorted p known, parts q ≠ parts p') ↔
        parts q ≠ parts p ∧ ∀ p' ∈ known, parts q ≠ parts p' := by
      have hexists : (∃ p' ∈ insertSorted p known, parts p' = parts q) ↔ _ := exists_mem_insertSorted
      simpa [eq_comm] using not_congr hexists
    rw [List.foldl_cons, mem_foldl_insertSorted_iff rest (insertSorted_sorted p h), mem_insertSorted_iff h, hplaces]
    by_cases hsame : parts p = parts q
    · rw [List.find?_cons_of_pos (by simpa using hsame)]
      simp [hsame, and_comm, eq_comm]
    · have hne : q ≠ p := fun heq => hsame (heq ▸ rfl)
      rw [List.find?_cons_of_neg (by simpa using hsame)]
      simp [hne, Ne.symm hsame]

end FlatSchema.Path

namespace FlatSchema.MemoryFiles

/-! ## Saves one after the other -/

/-- The files after some saves. -/
def saveAll (saves : List (String × String)) (files : MemoryFiles) : MemoryFiles :=
  saves.foldl (fun files s => save s.1 s.2 files) files

/-- The path of the first save to the place of a path. -/
def firstPath? (saves : List (String × String)) (path : String) : Option String :=
  (saves.find? fun s => Path.parts s.1 = Path.parts path).map (·.1)

/-- The contents of the last save to the place of a path. -/
def lastContents? (saves : List (String × String)) (path : String) : Option String :=
  (saves.reverse.find? fun s => Path.parts s.1 = Path.parts path).map (·.2)

/-- Memory takes every save. -/
theorem foldlM_save : ∀ (saves : List (String × String)) (files : MemoryFiles),
    saves.foldlM (fun files s => sink.save files s.1 s.2) files = .ok (saveAll saves files)
  | [], _ => rfl
  | s :: rest, files => by
    rw [List.foldlM_cons]
    exact foldlM_save rest (save s.1 s.2 files)

/-- The paths of the files stay sorted. -/
theorem paths_save (path contents : String) : ∀ files : MemoryFiles,
    (save path contents files).map (·.1) = Path.insertSorted path (files.map (·.1))
  | [] => rfl
  | (p, c) :: rest => by
    have hrest := paths_save path contents rest
    rw [save, List.map_cons, Path.insertSorted]
    cases Path.compare path p with
    | lt => rfl
    | eq => rfl
    | gt => exact congrArg (p :: ·) hrest

/-- The paths of files in memory are put in order as paths alone are. -/
theorem paths_saveAll : ∀ (saves : List (String × String)) (files : MemoryFiles),
    (saveAll saves files).map (·.1) =
      (saves.map (·.1)).foldl (fun known p => Path.insertSorted p known) (files.map (·.1))
  | [], _ => rfl
  | s :: rest, files => by
    rw [List.map_cons, List.foldl_cons, ← paths_save s.1 s.2]
    exact paths_saveAll rest (save s.1 s.2 files)

/-- What was saved last at a place is what a later save has put there, and else this one. -/
theorem lastContents?_cons (path p contents : String) (saves : List (String × String)) :
    lastContents? ((p, contents) :: saves) path =
      (lastContents? saves path).or (if Path.parts path = Path.parts p then some contents else none) := by
  rw [lastContents?, List.reverse_cons, List.find?_append, Option.map_or]
  congr 1
  by_cases hsame : Path.parts p = Path.parts path
  · simp [hsame]
  · simp [hsame, Ne.symm hsame]

/-- A path leads to the contents of the last save to its place, or else to what was there before. -/
theorem get?_saveAll (path : String) : ∀ (saves : List (String × String)) (files : MemoryFiles),
    get? (saveAll saves files) path = (lastContents? saves path).or (get? files path)
  | [], _ => rfl
  | (p, contents) :: rest, files => by
    have hrest := get?_saveAll path rest (save p contents files)
    rw [get?_save] at hrest
    rw [lastContents?_cons, Option.or_assoc]
    refine hrest.trans ?_
    congr 1
    split <;> rfl

/-- A file in order is found under its own path. -/
theorem mem_iff_get? {path contents : String} : ∀ {files : MemoryFiles}, Path.Sorted (files.map (·.1)) →
    ((path, contents) ∈ files ↔ path ∈ files.map (·.1) ∧ get? files path = some contents)
  | [], _ => by simp
  | (p, c) :: rest, h => by
    obtain ⟨hp, hrest⟩ := List.pairwise_cons.1 h
    rw [get?_cons, List.map_cons, List.mem_cons, List.mem_cons, Prod.mk.injEq]
    by_cases hsame : Path.parts path = Path.parts p
    · have hnot : path ∉ rest.map (·.1) := fun hmem => Path.parts_ne_of_lt (hp path hmem) hsame.symm
      have hnone : (path, contents) ∉ rest := fun hmem => hnot (List.mem_map_of_mem hmem)
      rw [if_pos hsame, or_iff_left hnot, or_iff_left hnone, Option.some.injEq, eq_comm (b := c)]
    · have hne : path ≠ p := fun heq => hsame (heq ▸ rfl)
      rw [if_neg hsame, mem_iff_get? hrest]
      simp [hne]

/-! ## Memory by places -/

/-- However files are saved, their paths are sorted. -/
theorem saveAll_sorted (saves : List (String × String)) : Path.Sorted ((saveAll saves []).map (·.1)) := by
  rw [paths_saveAll]
  exact (Path.foldl_insertSorted [] (saves.map (·.1)) List.Pairwise.nil).1

/-- The files lie at the places that were saved to. -/
theorem mem_places_saveAll_iff (saves : List (String × String)) (place : List Path.Part) :
    place ∈ (saveAll saves []).map (fun f => Path.parts f.1) ↔ place ∈ saves.map fun s => Path.parts s.1 := by
  have hplaces := (Path.foldl_insertSorted place (saves.map (·.1)) List.Pairwise.nil).2
  have hpaths := paths_saveAll saves []
  rw [List.map_nil] at hpaths
  rw [← hpaths] at hplaces
  simpa using hplaces

/-- There is one file for each place that something was saved to. -/
theorem places_saveAll_perm (saves : List (String × String)) :
    ((saveAll saves []).map fun f => Path.parts f.1).Perm (saves.map fun s => Path.parts s.1).dedup := by
  have hne := List.pairwise_map.1 (saveAll_sorted saves).places
  have hnodup : ((saveAll saves []).map fun f => Path.parts f.1).Nodup := List.pairwise_map.2 hne
  refine (List.perm_ext_iff_of_nodup hnodup (List.nodup_dedup _)).2 fun place => ?_
  rw [mem_places_saveAll_iff, List.mem_dedup]

/-- The first path to a place is the one that stays. -/
theorem mem_paths_saveAll_iff (saves : List (String × String)) (path : String) :
    path ∈ (saveAll saves []).map (·.1) ↔ firstPath? saves path = some path := by
  rw [paths_saveAll, List.map_nil, Path.mem_foldl_insertSorted_iff _ List.Pairwise.nil, or_iff_right List.not_mem_nil,
    and_iff_right fun p hp => absurd hp List.not_mem_nil, List.find?_map]
  rfl

/-- Memory is a map from places to contents. It takes all saves, and then a path leads to the contents of the last save to its place.
There are as many files as places that were saved to, one at each, in strictly ascending order of the places, and each has the path
that was first saved to its place. Two paths lead to the same place exactly when they differ in what does not count. -/
theorem sink_maps_places (saves : List (String × String)) :
    ∃ files : MemoryFiles, saves.foldlM (fun files s => sink.save files s.1 s.2) [] = .ok files ∧
      (∀ path, get? files path = lastContents? saves path) ∧
      files.length = (saves.map fun s => Path.parts s.1).dedup.length ∧
      (files.map fun f => Path.parts f.1).Perm (saves.map fun s => Path.parts s.1).dedup ∧
      (files.map fun f => Path.parts f.1).Pairwise (List.Lex fun a b => a.before b = true) ∧
      (∀ path contents, (path, contents) ∈ files ↔
        firstPath? saves path = some path ∧ lastContents? saves path = some contents) ∧
      ∀ path other, Path.parts path = Path.parts other ↔ Relation.EqvGen Path.Respelled path other := by
  have hget : ∀ path, get? (saveAll saves []) path = lastContents? saves path := fun path => by
    rw [get?_saveAll]
    exact Option.or_none
  have hperm := places_saveAll_perm saves
  refine ⟨saveAll saves [], foldlM_save saves [], hget, ?_, hperm, ?_, fun path contents => ?_, fun _ _ => Path.parts_eq_iff⟩
  · rw [← hperm.length_eq, List.length_map]
  · refine List.pairwise_map.2 ((List.pairwise_map.1 (saveAll_sorted saves)).imp fun hlt => ?_)
    exact Path.comparePartLists_lt_iff.1 hlt
  · rw [mem_iff_get? (saveAll_sorted saves), mem_paths_saveAll_iff, hget]

example : saveAll [("b//x", "1"), ("a", "2"), ("b/./x/", "3"), ("./a", "4")] [] =
    [("./a", "4"), ("a", "2"), ("b//x", "3")] := by decide +kernel

end FlatSchema.MemoryFiles
