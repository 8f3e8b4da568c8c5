import FlatSchema.Output.Sink
import FlatSchema.Proofs.Names

/-!
# The parts of paths

Two paths lead to the same place if they have the same parts, so what is said here about paths is said about their parts: those of
a joined path are those of the two paths (`parts_join`), and the order of paths is an order of their parts. Putting paths in order
therefore keeps one path for each place, and a file in memory is found by every path to its place.

From every path, whatever it starts with, the way up leads through all beginnings of its parts (`exists_ancestor_iff`).
-/

namespace FlatSchema.Path

/-! ## Pieces and parts -/

/-- The parts that pieces between separators stand for. -/
def pieceParts (pieces : List (List Char)) : List Part :=
  (pieces.filter (fun p => !ignorable p)).map fun p => if p = ['.', '.'] then .parent else .normal (String.ofList p)

theorem parts_eq (path : String) : parts path = (headAndPieces path).1 ++ pieceParts (headAndPieces path).2 := rfl

theorem pieceParts_append (a b : List (List Char)) : pieceParts (a ++ b) = pieceParts a ++ pieceParts b := by
  simp [pieceParts]

/-- A path that starts neither at the root nor with a dot for the current directory. -/
structure Bare (s : List Char) : Prop where
  root : ∀ rest, s ≠ '/' :: rest
  current : s ≠ ['.']
  below : ∀ rest, s ≠ '.' :: '/' :: rest

/-- A path that starts with the separator has the root as its head. -/
theorem headAndPieces_of_root {path : String} {rest : List Char} (h : path.toList = '/' :: rest) :
    headAndPieces path = ([.root], rest.splitOn '/') := by
  simp only [headAndPieces, h]

/-- A path that starts with `./` has the current directory as its head. -/
theorem headAndPieces_of_below {path : String} {rest : List Char} (h : path.toList = '.' :: '/' :: rest) :
    headAndPieces path = ([.current], [] :: rest.splitOn '/') := by
  unfold headAndPieces
  rw [h]
  rfl

/-- Every other path has no head. -/
theorem headAndPieces_of_bare {path : String} (h : Bare path.toList) : headAndPieces path = ([], path.toList.splitOn '/') := by
  unfold headAndPieces
  split
  next rest heq => exact absurd heq (h.root rest)
  next heq => exact absurd heq h.current
  next rest heq => exact absurd heq (h.below rest)
  next => rfl

/-- Whether a path has a head is seen at its start. -/
theorem Bare.append {s : List Char} (h : Bare s) (hne : s ≠ []) (t : List Char) : Bare (s ++ t) := by
  obtain ⟨c, s, rfl⟩ := List.exists_cons_of_ne_nil hne
  refine ⟨fun rest heq => ?_, fun heq => ?_, fun rest heq => ?_⟩
  · obtain ⟨rfl, -⟩ := List.cons.inj heq
    exact h.root s rfl
  · obtain ⟨rfl, htail⟩ := List.cons.inj heq
    obtain ⟨rfl, -⟩ := List.append_eq_nil_iff.1 htail
    exact h.current rfl
  · obtain ⟨rfl, htail⟩ := List.cons.inj heq
    cases s with
    | nil => exact h.current rfl
    | cons d s =>
      obtain ⟨rfl, -⟩ := List.cons.inj htail
      exact h.below s rfl

/-- The four ways a path may start. -/
theorem start_cases (s : List Char) :
    (∃ rest, s = '/' :: rest) ∨ s = ['.'] ∨ (∃ rest, s = '.' :: '/' :: rest) ∨ Bare s := by
  by_cases hroot : ∃ rest, s = '/' :: rest
  · exact .inl hroot
  · by_cases hcurrent : s = ['.']
    · exact .inr (.inl hcurrent)
    · by_cases hbelow : ∃ rest, s = '.' :: '/' :: rest
      · exact .inr (.inr (.inl hbelow))
      · exact .inr (.inr (.inr ⟨not_exists.1 hroot, hcurrent, not_exists.1 hbelow⟩))

/-- A separator after a path that is not empty starts a new piece. -/
theorem parts_append_separator {a : String} (ha : a ≠ "") (b : String) :
    parts (a ++ "/" ++ b) = parts a ++ pieceParts (b.toList.splitOn '/') := by
  have hne : a.toList ≠ [] := fun hnil => ha (String.toList_eq_nil_iff.1 hnil)
  have hchars : (a ++ "/" ++ b).toList = a.toList ++ '/' :: b.toList := by simp
  rcases start_cases a.toList with ⟨rest, hs⟩ | hs | ⟨rest, hs⟩ | hbare
  · have hs' : (a ++ "/" ++ b).toList = '/' :: (rest ++ '/' :: b.toList) := by rw [hchars, hs, List.cons_append]
    rw [parts_eq, parts_eq, headAndPieces_of_root hs, headAndPieces_of_root hs', List.splitOn_append_cons_self,
      pieceParts_append, List.append_assoc]
  · obtain rfl : a = "." := String.toList_inj.1 hs
    have hs' : ("." ++ "/" ++ b).toList = '.' :: '/' :: b.toList := hchars
    rw [parts_eq, headAndPieces_of_below hs']
    rfl
  · have hs' : (a ++ "/" ++ b).toList = '.' :: '/' :: (rest ++ '/' :: b.toList) := by
      rw [hchars, hs, List.cons_append, List.cons_append]
    rw [parts_eq, parts_eq, headAndPieces_of_below hs, headAndPieces_of_below hs', List.splitOn_append_cons_self,
      ← List.cons_append, pieceParts_append, List.append_assoc]
  · have hbare' : Bare (a ++ "/" ++ b).toList := hchars ▸ hbare.append hne _
    rw [parts_eq, parts_eq, headAndPieces_of_bare hbare, headAndPieces_of_bare hbare', hchars,
      List.splitOn_append_cons_self, pieceParts_append]
    rfl

/-- A text that begins a file name: it is not empty, has no separator and does not start with a dot. -/
structure Stem (s : String) : Prop where
  start : ∃ c rest, s.toList = c :: rest ∧ c ≠ '.'
  whole : '/' ∉ s.toList

/-- A file name is not a head. -/
theorem Stem.bare {s : String} (h : Stem s) : Bare s.toList := by
  obtain ⟨c, rest, hs, hdot⟩ := h.start
  have hsep : c ≠ '/' := fun e => h.whole (hs ▸ e ▸ List.mem_cons_self)
  rw [hs]
  exact ⟨fun _ heq => hsep (List.cons.inj heq).1, fun heq => hdot (List.cons.inj heq).1,
    fun _ heq => hdot (List.cons.inj heq).1⟩

theorem Stem.bare_append {s : String} (h : Stem s) (t : String) : Bare (s ++ t).toList := by
  obtain ⟨c, rest, hs, _⟩ := h.start
  rw [String.toList_append]
  exact h.bare.append (hs ▸ List.cons_ne_nil _ _) _

/-- A path without a head has the parts of its pieces. -/
theorem parts_of_bare {path : String} (h : Bare path.toList) : parts path = pieceParts (path.toList.splitOn '/') := by
  rw [parts_eq, headAndPieces_of_bare h]
  rfl

/-- A path that ends in a separator may be followed by another at once. -/
theorem parts_append_of_separator {a : String} (ha : a.toList.getLast? = some '/') (b : String) :
    parts (a ++ b) = parts a ++ pieceParts (b.toList.splitOn '/') := by
  obtain ⟨front, hfront⟩ := List.getLast?_eq_some_iff.1 ha
  obtain rfl : a = String.ofList front ++ "/" := String.toList_inj.1 (by simp [hfront])
  by_cases hempty : String.ofList front = ""
  · have hs : (String.ofList front ++ "/" ++ b).toList = '/' :: b.toList := by rw [hempty]; simp
    rw [parts_eq, headAndPieces_of_root hs, hempty]
    rfl
  · have hfirst := parts_append_separator hempty ""
    rw [String.append_empty] at hfirst
    rw [parts_append_separator hempty, hfirst, List.append_assoc]
    rfl

/-- Below the empty path a path is itself. -/
theorem join_empty (b : String) : join "" b = b := by
  unfold join
  split
  next => rfl
  next => simp

/-- The parts of a joined path are those of the path and of what is joined to it. -/
theorem parts_join (a : String) {b : String} (hb : Bare b.toList) : parts (join a b) = parts a ++ parts b := by
  have hrelative : isAbsolute b = false := by
    unfold isAbsolute
    rw [beq_eq_false_iff_ne]
    intro hhead
    obtain ⟨rest, hrest⟩ := List.head?_eq_some_iff.1 hhead
    exact hb.root rest hrest
  rw [parts_of_bare hb, join, hrelative]
  by_cases hempty : a = ""
  · subst hempty
    simp [parts_of_bare hb]
    rfl
  · by_cases hlast : a.toList.getLast? = some '/'
    · simp [hlast, parts_append_of_separator hlast]
    · simp [hempty, hlast, parts_append_separator hempty]

/-! ## Names of files -/

/-- The first piece of an extension. -/
def extensionHead (ext : String) : String := String.ofList ((ext.toList.splitOn '/').headD [])

/-- The parts behind the first piece of an extension. -/
def extensionTail (ext : String) : List Part := pieceParts (ext.toList.splitOn '/').tail

/-- A text without separators in front of a path makes its first piece longer. -/
theorem splitOn_append_of_not_mem {a : List Char} (ha : '/' ∉ a) (b : List Char) :
    (a ++ b).splitOn '/' = (a ++ (b.splitOn '/').headD []) :: (b.splitOn '/').tail := by
  induction a with
  | nil =>
    cases hb : b.splitOn '/' with
    | nil => exact absurd hb (List.splitOn_ne_nil _ _)
    | cons p rest => simp [hb]
  | cons c a ih =>
    have hc : c ≠ '/' := fun e => ha (e ▸ List.mem_cons_self)
    rw [List.cons_append, List.splitOn_cons_eq_if_modifyHead, ih fun hmem => ha (List.mem_cons_of_mem _ hmem)]
    simp [hc]

/-- A name of a file has one part, which no extension hides, and what is behind a separator in the extension. -/
theorem Stem.parts_append {s : String} (h : Stem s) (ext : String) :
    parts (s ++ ext) = .normal (s ++ extensionHead ext) :: extensionTail ext := by
  obtain ⟨c, rest, hs, hdot⟩ := h.start
  let piece := s.toList ++ (ext.toList.splitOn '/').headD []
  have hkept : ignorable piece = false := by simp [piece, ignorable, hs, hdot]
  have hnormal : piece ≠ ['.', '.'] := by simp [piece, hs, hdot]
  have hname : String.ofList piece = s ++ extensionHead ext := by
    rw [String.ofList_append, String.ofList_toList]
    rfl
  rw [parts_of_bare (h.bare_append ext), String.toList_append, splitOn_append_of_not_mem h.whole, pieceParts,
    List.filter_cons_of_pos (by rw [hkept]; rfl), List.map_cons, if_neg hnormal, hname]
  rfl

/-- An identifier begins a file name: it is not empty and its characters are letters, digits and underscores. -/
theorem stem_of_isIdentifier {s : String} (h : isIdentifier s = true) : Stem s := by
  obtain ⟨c, rest, hs, hword⟩ := isIdentifier_chars h
  refine ⟨⟨c, rest, hs, fun hdot => ?_⟩, not_mem_of_isIdentifier h (by decide)⟩
  have hc := hword c (hs ▸ List.mem_cons_self)
  rw [hdot] at hc
  exact absurd hc (by decide)

/-! ## Directories -/

/-- Components that are identifiers are the parts of their path. -/
theorem parts_foldl_join {components : List String} (h : ∀ c ∈ components, isIdentifier c = true) (a : String) :
    parts (components.foldl join a) = parts a ++ components.map .normal := by
  induction components generalizing a with
  | nil => exact (List.append_nil _).symm
  | cons c components ih =>
    have hstem := stem_of_isIdentifier (h c List.mem_cons_self)
    have hpart : parts c = [.normal c] := by
      have hparts : parts (c ++ "") = [.normal (c ++ "")] := hstem.parts_append ""
      rwa [String.append_empty] at hparts
    rw [List.foldl_cons, ih (fun d hd => h d (List.mem_cons_of_mem _ hd)), parts_join a hstem.bare, hpart, List.map_cons,
      List.append_assoc, List.singleton_append]

/-- The directory of a namespace has one part for each component. -/
theorem parts_ofComponents {components : List String} (h : ∀ c ∈ components, isIdentifier c = true) :
    parts (ofComponents components) = components.map .normal := parts_foldl_join h ""

/-! ## The way up -/

/-- The pieces of a text have no separators. -/
theorem splitOn_not_mem {x : Char} {s : List Char} : ∀ p ∈ s.splitOn x, x ∉ p := by
  induction s with
  | nil => simp
  | cons c s ih =>
    rw [List.splitOn_cons_eq_if_modifyHead]
    split
    next =>
      intro p hp
      rcases List.mem_cons.1 hp with rfl | hp
      · exact List.not_mem_nil
      · exact ih p hp
    next hc =>
      cases hsplit : s.splitOn x with
      | nil => simp
      | cons q rest =>
        rw [hsplit] at ih
        intro p hp
        rcases List.mem_cons.1 hp with rfl | hp
        · intro hmem
          rcases List.mem_cons.1 hmem with rfl | hmem
          · exact hc (beq_self_eq_true _)
          · exact ih q List.mem_cons_self hmem
        · exact ih p (List.mem_cons_of_mem _ hp)

/-- The first piece of a path that starts neither at the root nor with a dot is a part. -/
theorem Bare.pieces {s : List Char} (h : Bare s) (hne : s ≠ []) :
    ∃ q rest, s.splitOn '/' = q :: rest ∧ ignorable q = false := by
  obtain ⟨q, rest, hsplit⟩ := List.exists_cons_of_ne_nil (List.splitOn_ne_nil '/' s)
  have hs : ['/'].intercalate (q :: rest) = s := hsplit ▸ List.intercalate_splitOn '/'
  refine ⟨q, rest, hsplit, ?_⟩
  rw [ignorable, Bool.or_eq_false_iff, List.isEmpty_eq_false_iff, beq_eq_false_iff_ne]
  cases rest with
  | nil =>
    rw [List.intercalate_singleton] at hs
    exact ⟨hs ▸ hne, hs ▸ h.current⟩
  | cons p rest =>
    rw [List.intercalate_cons_cons] at hs
    refine ⟨?_, ?_⟩
    · rintro rfl
      exact h.root _ hs.symm
    · rintro rfl
      exact h.below _ hs.symm

/-- A path that is not empty has parts. -/
theorem Bare.parts_ne_nil {path : String} (h : Bare path.toList) (hne : path ≠ "") : parts path ≠ [] := by
  obtain ⟨q, rest, hsplit, hq⟩ := h.pieces fun hnil => hne (String.toList_eq_nil_iff.1 hnil)
  rw [parts_of_bare h, hsplit, pieceParts, List.filter_cons_of_pos (by rw [hq]; rfl)]
  exact List.cons_ne_nil _ _

/-- Joining pieces as strings is joining them as lists of characters. -/
theorem toList_intercalate_pieces (pieces : List (List Char)) :
    ("/".intercalate (pieces.map String.ofList)).toList = ['/'].intercalate pieces := by
  rw [String.toList_intercalate, List.map_map]
  simp [Function.comp_def]

/-- Pieces whose first is a part are the pieces of their path. -/
theorem parts_intercalate {q : List Char} {rest : List (List Char)} (hq : ignorable q = false)
    (hsep : ∀ p ∈ q :: rest, '/' ∉ p) :
    parts ("/".intercalate ((q :: rest).map String.ofList)) = pieceParts (q :: rest) := by
  have hchars := toList_intercalate_pieces (q :: rest)
  have hsplit : (['/'].intercalate (q :: rest)).splitOn '/' = q :: rest :=
    List.splitOn_intercalate '/' hsep (List.cons_ne_nil _ _)
  have hbare : Bare (['/'].intercalate (q :: rest)) := by
    generalize ['/'].intercalate (q :: rest) = s at hsplit
    refine ⟨?_, ?_, ?_⟩
    · rintro s rfl
      rw [List.splitOn_cons_eq_if_modifyHead, if_pos (by decide)] at hsplit
      cases hsplit
      cases hq
    · rintro rfl
      cases hsplit
      cases hq
    · rintro s rfl
      rw [List.splitOn_cons_eq_if_modifyHead, if_neg (by decide), List.splitOn_cons_eq_if_modifyHead,
        if_pos (by decide)] at hsplit
      cases hsplit
      cases hq
  rw [parts_of_bare (hchars ▸ hbare), hchars, hsplit]

/-- Pieces at the end that are no parts do not count. -/
theorem pieceParts_trimmed (pieces : List (List Char)) :
    pieceParts (pieces.reverse.dropWhile ignorable).reverse = pieceParts pieces := by
  have hsplit := List.takeWhile_append_dropWhile (p := ignorable) (l := pieces.reverse)
  have hpieces : pieces = (pieces.reverse.dropWhile ignorable).reverse ++ (pieces.reverse.takeWhile ignorable).reverse := by
    rw [← List.reverse_append, hsplit, List.reverse_reverse]
  have hnone : pieceParts (pieces.reverse.takeWhile ignorable).reverse = [] := by
    rw [pieceParts, List.map_eq_nil_iff, List.filter_eq_nil_iff]
    intro p hp
    rw [List.all_eq_true.1 List.all_takeWhile p (List.mem_reverse.1 hp)]
    exact Bool.false_ne_true
  have happend := pieceParts_append (pieces.reverse.dropWhile ignorable).reverse (pieces.reverse.takeWhile ignorable).reverse
  rw [← hpieces, hnone, List.append_nil] at happend
  exact happend.symm

/-- The beginning of some pieces, up to the last that is a part, is the beginning of them. -/
theorem trimmed_isPrefix (pieces : List (List Char)) : (pieces.reverse.dropWhile ignorable).reverse <+: pieces := by
  have hsuffix := List.reverse_prefix.2 (List.dropWhile_suffix (l := pieces.reverse) ignorable)
  rwa [List.reverse_reverse] at hsuffix

/-- Behind a dot for the current directory the first piece is empty. -/
theorem parts_current {kept pieces : List (List Char)} (h : kept <+: [] :: pieces) (hsep : ∀ p ∈ pieces, '/' ∉ p) :
    parts (headText [.current] ++ "/".intercalate (kept.map String.ofList)) = [.current] ++ pieceParts kept := by
  rcases List.prefix_cons_iff.1 h with rfl | ⟨more, rfl, hmore⟩
  · rfl
  · cases more with
    | nil => rfl
    | cons p more =>
      have htext : (headText [.current] ++ "/".intercalate (([] :: p :: more).map String.ofList)).toList =
          '.' :: '/' :: ['/'].intercalate (p :: more) := by
        rw [String.toList_append, toList_intercalate_pieces, List.intercalate_cons_cons]
        rfl
      have hsplit := List.splitOn_intercalate '/' (fun q hq => hsep q (hmore.subset hq)) (List.cons_ne_nil p more)
      rw [parts_eq, headAndPieces_of_below htext, hsplit]

/-- The text of the first pieces of a path has the parts of the start and of these pieces. -/
theorem parts_textOf {path : String} {front : List (List Char)} (h : front <+: (headAndPieces path).2) :
    parts (textOf (headAndPieces path).1 front) = (headAndPieces path).1 ++ pieceParts front := by
  -- the pieces at the end that are no parts have gone from the text, and do not count
  rw [textOf, ← pieceParts_trimmed front]
  replace h := (trimmed_isPrefix front).trans h
  generalize (front.reverse.dropWhile ignorable).reverse = kept at h
  rcases start_cases path.toList with ⟨rest, hs⟩ | hs | ⟨rest, hs⟩ | hbare
  · rw [headAndPieces_of_root hs] at h ⊢
    have htext : (headText [Part.root] ++ "/".intercalate (kept.map String.ofList)).toList = '/' :: ['/'].intercalate kept := by
      rw [String.toList_append, toList_intercalate_pieces]
      rfl
    rw [parts_eq, headAndPieces_of_root htext]
    cases kept with
    | nil => rfl
    | cons q more => rw [List.splitOn_intercalate '/' (fun p hp => splitOn_not_mem p (h.subset hp)) (List.cons_ne_nil _ _)]
  · obtain rfl : path = "." := String.toList_inj.1 hs
    exact parts_current h fun p hp => absurd hp List.not_mem_nil
  · rw [headAndPieces_of_below hs] at h ⊢
    exact parts_current h splitOn_not_mem
  · rw [headAndPieces_of_bare hbare] at h ⊢
    cases kept with
    | nil => rfl
    | cons q more =>
      by_cases hne : path = ""
      · subst hne
        obtain ⟨rfl, hmore⟩ := List.cons_prefix_cons.1 h
        rw [List.prefix_nil.1 hmore]
        rfl
      · obtain ⟨first, others, hsplit, hfirst⟩ := hbare.pieces fun hnil => hne (String.toList_eq_nil_iff.1 hnil)
        have hsep : ∀ p ∈ q :: more, '/' ∉ p := fun p hp => splitOn_not_mem p (h.subset hp)
        have hbegin : q :: more <+: first :: others := hsplit ▸ h
        obtain ⟨rfl, _⟩ := List.cons_prefix_cons.1 hbegin
        have hempty : headText [] ++ "/".intercalate ((q :: more).map String.ofList) =
            "/".intercalate ((q :: more).map String.ofList) := String.empty_append
        rw [hempty, parts_intercalate hfirst hsep, List.nil_append]

theorem head_cases (path : String) : (headAndPieces path).1 ∈ [[], [.root], [.current]] := by
  unfold headAndPieces
  split <;> simp

/-- The path around a path has all parts but the last. A path without one has a single part at most. -/
theorem parent?_cases (path : String) :
    (∃ p, parent? path = some p ∧ parts path ≠ [] ∧ parts p = (parts path).dropLast) ∨
      (parent? path = none ∧ (parts path).length ≤ 1) := by
  have hparts := pieceParts_trimmed (headAndPieces path).2
  have hbegin := trimmed_isPrefix (headAndPieces path).2
  unfold parent?
  dsimp only
  cases htrim : (headAndPieces path).2.reverse.dropWhile ignorable with
  | nil =>
    -- nothing is left but the head: only the current directory has a parent
    have hhead : parts path = (headAndPieces path).1 := by
      rw [parts_eq, ← hparts, htrim]
      exact List.append_nil _
    rw [hhead]
    have hcases := head_cases path
    simp only [List.mem_cons, List.not_mem_nil, or_false] at hcases
    rcases hcases with heq | heq | heq <;> rw [heq]
    · exact .inr ⟨rfl, by decide⟩
    · exact .inr ⟨rfl, by decide⟩
    · exact .inl ⟨"", rfl, List.cons_ne_nil _ _, rfl⟩
  | cons last before =>
    have hlast : ignorable last = false := by
      have hnot := List.head?_dropWhile_not ignorable (headAndPieces path).2.reverse
      rw [htrim] at hnot
      simpa using hnot
    rw [htrim, List.reverse_cons] at hparts hbegin
    have hsplit : ∃ part, parts path = (headAndPieces path).1 ++ pieceParts before.reverse ++ [part] := by
      refine ⟨if last = ['.', '.'] then .parent else .normal (String.ofList last), ?_⟩
      rw [parts_eq, ← hparts, pieceParts_append, List.append_assoc]
      simp [pieceParts, hlast]
    obtain ⟨part, hpart⟩ := hsplit
    refine .inl ⟨_, rfl, ?_, ?_⟩
    · rw [hpart]
      exact List.append_ne_nil_of_right_ne_nil _ (List.cons_ne_nil _ _)
    · rw [parts_textOf ((List.prefix_append _ _).trans hbegin), hpart, List.dropLast_concat]

/-- Only the empty path has no parts. -/
theorem parts_eq_nil_iff {path : String} : parts path = [] ↔ path = "" := by
  refine ⟨fun h => ?_, ?_⟩
  · rcases start_cases path.toList with ⟨rest, hs⟩ | hs | ⟨rest, hs⟩ | hbare
    · rw [parts_eq, headAndPieces_of_root hs] at h
      cases h
    · obtain rfl : path = "." := String.toList_inj.1 hs
      cases h
    · rw [parts_eq, headAndPieces_of_below hs] at h
      cases h
    · by_cases hne : path = ""
      · exact hne
      · exact absurd h (hbare.parts_ne_nil hne)
  · rintro rfl
    rfl

/-- A place around another one. The empty place is around nothing. -/
def Around (place inner : List Part) : Prop := place ≠ [] ∧ place <+: inner ∧ place ≠ inner

/-- What is around a place is the place without its last part, or around that. -/
theorem around_concat {place front : List Part} {last : Part} :
    Around place (front ++ [last]) ↔ place ≠ [] ∧ (place = front ∨ Around place front) := by
  unfold Around
  rw [List.prefix_concat_iff]
  constructor
  · rintro ⟨hne, hbegin, hother⟩
    by_cases hfront : place = front
    · exact ⟨hne, .inl hfront⟩
    · exact ⟨hne, .inr ⟨hne, hbegin.resolve_left hother, hfront⟩⟩
  · rintro ⟨hne, rfl | ⟨_, hbegin, _⟩⟩
    · exact ⟨hne, .inr List.prefix_rfl, fun heq => by simpa using congrArg List.length heq⟩
    · refine ⟨hne, .inr hbegin, fun heq => ?_⟩
      have hlength := hbegin.length_le
      rw [heq, List.length_append, List.length_singleton] at hlength
      exact Nat.not_succ_le_self _ hlength

/-- Nothing is around a path of one part. -/
theorem not_around_of_length {place inner : List Part} (h : inner.length ≤ 1) : ¬Around place inner := by
  rintro ⟨hne, hbegin, hother⟩
  have hlength := List.length_pos_iff.2 hne
  exact hother (hbegin.eq_of_length_le (Nat.le_trans h hlength))

/-- The directories that lead to a path are all places around its own, if enough steps are made. -/
theorem exists_mem_ancestors_iff {place : List Part} : ∀ {n : Nat} {path : String}, (parts path).length ≤ n →
    ((∃ dir ∈ ancestors n path, parts dir = place) ↔ Around place (parts path))
  | 0, path, hn => by
    have hnot : ¬Around place (parts path) := not_around_of_length (Nat.le_succ_of_le hn)
    simp [ancestors, hnot]
  | n + 1, path, hn => by
    rw [ancestors]
    -- the induction is on the steps: each one takes the last part away, and the empty path ends the search
    rcases parent?_cases path with ⟨p, hp, hne, hparts⟩ | ⟨hp, hlength⟩
    · have hsplit := List.dropLast_concat_getLast hne
      rw [hp, ← hsplit, ← hparts, around_concat]
      dsimp only
      by_cases hempty : p = ""
      · subst hempty
        have hnot : ¬Around place (parts "") := not_around_of_length (Nat.zero_le 1)
        constructor
        · rintro ⟨dir, hdir, _⟩
          exact absurd hdir List.not_mem_nil
        · rintro ⟨hplace, h⟩
          exact (h.elim hplace hnot).elim
      · have hshort : (parts p).length ≤ n := by
          rw [hparts, List.length_dropLast]
          omega
        have hnonempty : p.isEmpty = false := by simpa using hempty
        rw [hnonempty, if_neg Bool.false_ne_true]
        simp only [List.mem_cons, exists_eq_or_imp, exists_mem_ancestors_iff hshort]
        constructor
        · rintro (rfl | h)
          · exact ⟨fun hnil => hempty (parts_eq_nil_iff.1 hnil), .inl rfl⟩
          · exact ⟨h.1, .inr h⟩
        · rintro ⟨_, h⟩
          exact h.imp_left Eq.symm
    · rw [hp]
      refine iff_of_false ?_ (not_around_of_length hlength)
      rintro ⟨dir, hdir, _⟩
      exact absurd hdir List.not_mem_nil

/-- No more pieces are parts than there are characters. -/
theorem length_filter_splitOn_le (s : List Char) : ((s.splitOn '/').filter fun p => !ignorable p).length ≤ s.length := by
  induction s with
  | nil => exact Nat.le_refl 0
  | cons c s ih =>
    rw [List.splitOn_cons_eq_if_modifyHead]
    split
    next => exact Nat.le_succ_of_le ih
    next =>
      cases hsplit : s.splitOn '/' with
      | nil => exact Nat.zero_le _
      | cons q rest =>
        rw [hsplit] at ih
        rw [List.modifyHead_cons]
        -- a character in front may make its piece a part
        have hfront := List.length_filter_le (fun p => !ignorable p) [c :: q]
        have hrest : (rest.filter fun p => !ignorable p).length ≤ ((q :: rest).filter fun p => !ignorable p).length :=
          ((List.sublist_cons_self q rest).filter _).length_le
        have hcons := List.filter_append (p := fun p => !ignorable p) [c :: q] rest
        rw [List.singleton_append] at hcons
        rw [hcons, List.length_append, List.length_cons]
        exact Nat.le_trans (Nat.add_le_add hfront (Nat.le_trans hrest ih)) (Nat.le_of_eq (Nat.add_comm 1 _))

/-- A path has no more parts than characters. -/
theorem length_pieceParts_splitOn_le (s : List Char) : (pieceParts (s.splitOn '/')).length ≤ s.length := by
  rw [pieceParts, List.length_map]
  exact length_filter_splitOn_le s

/-- The same with the head, which is made of characters too. -/
theorem length_parts_le (path : String) : (parts path).length ≤ path.toList.length := by
  rcases start_cases path.toList with ⟨rest, hs⟩ | hs | ⟨rest, hs⟩ | hbare
  · rw [parts_eq, headAndPieces_of_root hs, hs]
    exact Nat.succ_le_succ (length_pieceParts_splitOn_le rest)
  · obtain rfl : path = "." := String.toList_inj.1 hs
    decide
  · rw [parts_eq, headAndPieces_of_below hs, hs]
    exact Nat.succ_le_succ (Nat.le_succ_of_le (length_pieceParts_splitOn_le rest))
  · rw [parts_of_bare hbare]
    exact length_pieceParts_splitOn_le _

/-- Every character takes a byte at least. -/
theorem length_le_utf8ByteSize (chars : List Char) : chars.length ≤ (String.ofList chars).utf8ByteSize := by
  induction chars with
  | nil => exact Nat.zero_le _
  | cons c chars ih =>
    rw [List.length_cons, ← List.singleton_append, String.ofList_append, String.utf8ByteSize_append, Nat.add_comm]
    refine Nat.add_le_add ?_ ih
    rw [← String.singleton_eq_ofList, String.utf8ByteSize_singleton]
    exact c.utf8Size_pos

/-- The ancestors of a path are the places around it: the bytes of the path are steps enough to find all of them. -/
theorem exists_ancestor_iff {place : List Part} (path : String) :
    (∃ dir ∈ ancestors path.utf8ByteSize path, parts dir = place) ↔ Around place (parts path) := by
  have hbytes := length_le_utf8ByteSize path.toList
  rw [String.ofList_toList] at hbytes
  exact exists_mem_ancestors_iff (Nat.le_trans (length_parts_le path) hbytes)

/-! ## The order of paths -/

theorem Part.before_iff {a b : Part} :
    a.before b = true ↔ a.rank < b.rank ∨ ∃ x y, a = .normal x ∧ b = .normal y ∧ x < y := by
  cases a <;> cases b <;> simp [before, rank]

theorem Part.rank_le (a : Part) : a.rank ≤ 3 := by
  cases a <;> simp [rank]

/-- The order of parts is transitive. -/
theorem Part.before_trans {a b c : Part} (hab : a.before b = true) (hbc : b.before c = true) : a.before c = true := by
  have hc := c.rank_le
  rw [before_iff] at *
  rcases hab with hab | ⟨x, y, rfl, rfl, hxy⟩
  · rcases hbc with hbc | ⟨y, z, rfl, rfl, _⟩
    · exact .inl (Nat.lt_trans hab hbc)
    · exact .inl hab
  · rcases hbc with hbc | ⟨y', z, hy, rfl, hyz⟩
    · have hb : (Part.normal y).rank = 3 := rfl
      omega
    · cases hy
      exact .inr ⟨x, z, rfl, rfl, String.lt_trans hxy hyz⟩

/-- No part is before itself. -/
theorem Part.before_irrefl (a : Part) : a.before a = false := by
  rw [Bool.eq_false_iff, ne_eq, before_iff]
  rintro (hlt | ⟨x, y, rfl, hy, hxy⟩)
  · exact Nat.lt_irrefl _ hlt
  · cases hy
    exact String.lt_irrefl _ hxy

/-- Of two different parts one is before the other. -/
theorem Part.before_total {a b : Part} (hne : a ≠ b) (hab : a.before b = false) : b.before a = true := by
  cases a with
  | normal x =>
    cases b with
    | normal y =>
      have hxy : ¬x < y := of_decide_eq_false hab
      have hdiff : x ≠ y := fun e => hne (congrArg _ e)
      exact decide_eq_true (Decidable.by_contra fun hyx => hdiff (String.le_antisymm (String.not_lt.1 hyx) (String.not_lt.1 hxy)))
    | root => rfl
    | current => rfl
    | parent => rfl
  | root => cases b <;> simp_all [before, rank]
  | current => cases b <;> simp_all [before, rank]
  | parent => cases b <;> simp_all [before, rank]

/-- Paths compare as equal if their parts are the same. -/
theorem comparePartLists_eq_iff {a b : List Part} : comparePartLists a b = .eq ↔ a = b := by
  induction a generalizing b with
  | nil => cases b <;> simp [comparePartLists]
  | cons x a ih =>
    cases b with
    | nil => simp [comparePartLists]
    | cons y b =>
      rw [comparePartLists]
      by_cases hxy : x = y
      · simp [hxy, ih]
      · by_cases hbefore : x.before y = true <;> simp [hxy, hbefore]

/-- The order of lists of parts is that of dictionaries. -/
theorem comparePartLists_lt_iff {a b : List Part} :
    comparePartLists a b = .lt ↔ List.Lex (fun x y => x.before y = true) a b := by
  induction a generalizing b with
  | nil => cases b <;> simp [comparePartLists]
  | cons x a ih =>
    cases b with
    | nil => simp [comparePartLists]
    | cons y b =>
      rw [comparePartLists, List.cons_lex_cons_iff]
      by_cases hxy : x = y
      · simp [hxy, ih, Part.before_irrefl]
      · by_cases hbefore : x.before y = true <;> simp [hxy, hbefore]

/-- Of two paths compared the other way round, the greater is the other one. -/
theorem comparePartLists_swap {a b : List Part} (h : comparePartLists a b = .gt) : comparePartLists b a = .lt := by
  induction a generalizing b with
  | nil => cases b <;> simp [comparePartLists] at h
  | cons x a ih =>
    cases b with
    | nil => rfl
    | cons y b =>
      rw [comparePartLists] at h ⊢
      by_cases hxy : x = y
      · rw [if_pos hxy] at h
        rw [if_pos hxy.symm]
        exact ih h
      · rw [if_neg hxy] at h
        rw [if_neg (Ne.symm hxy)]
        cases hbefore : x.before y with
        | true => simp [hbefore] at h
        | false => simp [Part.before_total hxy hbefore]

/-- The order of paths is transitive. -/
theorem comparePartLists_trans {a b c : List Part} (hab : comparePartLists a b = .lt) (hbc : comparePartLists b c = .lt) :
    comparePartLists a c = .lt := by
  rw [comparePartLists_lt_iff] at *
  exact List.lex_trans Part.before_trans hab hbc

theorem parts_ne_of_compare {a b : String} (h : compare a b ≠ .eq) : parts a ≠ parts b :=
  fun heq => h (comparePartLists_eq_iff.2 heq)

theorem parts_ne_of_lt {a b : String} (h : compare a b = .lt) : parts a ≠ parts b :=
  parts_ne_of_compare (by rw [h]; decide)

/-- Paths in ascending order. -/
def Sorted (paths : List String) : Prop := paths.Pairwise fun a b => compare a b = .lt

theorem Sorted.places {paths : List String} (h : Sorted paths) : paths.Pairwise fun a b => parts a ≠ parts b :=
  h.imp parts_ne_of_lt

/-- Inserting a path brings in no other one. -/
theorem mem_insertSorted {path q : String} : ∀ {paths : List String}, q ∈ insertSorted path paths → q = path ∨ q ∈ paths
  | [], h => .inl (List.mem_singleton.1 h)
  | p :: rest, h => by
    rw [insertSorted] at h
    split at h
    next => exact List.mem_cons.1 h
    next => exact .inr h
    next =>
      rcases List.mem_cons.1 h with rfl | h
      · exact .inr List.mem_cons_self
      · exact (mem_insertSorted h).imp_right (List.mem_cons_of_mem _)

/-- Inserting a path keeps the list sorted. -/
theorem insertSorted_sorted (path : String) : ∀ {paths : List String}, Sorted paths → Sorted (insertSorted path paths)
  | [], _ => List.pairwise_singleton _ _
  | p :: rest, h => by
    obtain ⟨hp, hrest⟩ := List.pairwise_cons.1 h
    rw [insertSorted]
    split
    next hlt =>
      refine List.pairwise_cons.2 ⟨fun q hq => ?_, h⟩
      rcases List.mem_cons.1 hq with rfl | hq
      · exact hlt
      · exact comparePartLists_trans hlt (hp q hq)
    next => exact h
    next hgt =>
      refine List.pairwise_cons.2 ⟨fun q hq => ?_, insertSorted_sorted path hrest⟩
      rcases mem_insertSorted hq with rfl | hq
      · exact comparePartLists_swap hgt
      · exact hp q hq

/-- The places of the paths after one was put in: its own, and those before. -/
theorem exists_mem_insertSorted {path : String} {place : List Part} : ∀ {paths : List String},
    (∃ q ∈ insertSorted path paths, parts q = place) ↔ parts path = place ∨ ∃ q ∈ paths, parts q = place
  | [] => by simp [insertSorted]
  | p :: rest => by
    rw [insertSorted]
    split
    next => simp
    next heq =>
      have hsame : parts path = parts p := comparePartLists_eq_iff.1 heq
      simp only [List.mem_cons, exists_eq_or_imp, hsame, or_self_left]
    next =>
      simp only [List.mem_cons, exists_eq_or_imp, exists_mem_insertSorted, or_left_comm]

/-- Paths that are put in order one after the other. -/
theorem foldl_insertSorted (place : List Part) : ∀ (paths : List String) {known : List String}, Sorted known →
    Sorted (paths.foldl (fun known p => insertSorted p known) known) ∧
      ((∃ q ∈ paths.foldl (fun known p => insertSorted p known) known, parts q = place) ↔
        (∃ q ∈ known, parts q = place) ∨ ∃ q ∈ paths, parts q = place)
  | [], known, h => by simpa using h
  | p :: rest, known, h => by
    obtain ⟨hsorted, hplaces⟩ := foldl_insertSorted place rest (insertSorted_sorted p h)
    refine ⟨hsorted, ?_⟩
    rw [List.foldl_cons, hplaces, exists_mem_insertSorted]
    simp only [List.mem_cons, exists_eq_or_imp, or_assoc, or_left_comm]

end FlatSchema.Path

/-! ## Files in memory -/

namespace FlatSchema.MemoryFiles

/-- What is read is the first file whose path has the same parts. -/
theorem get?_cons (path p contents : String) (files : MemoryFiles) :
    get? ((p, contents) :: files) path = if Path.parts path = Path.parts p then some contents else get? files path := by
  unfold get?
  rw [List.find?_cons]
  by_cases hsame : Path.parts path = Path.parts p
  · have heq : Path.compare path p = .eq := Path.comparePartLists_eq_iff.2 hsame
    simp [hsame, heq]
  · have hne : Path.compare path p ≠ .eq := fun heq => hsame (Path.comparePartLists_eq_iff.1 heq)
    rw [beq_false_of_ne hne, if_neg hsame]

/-- A saved file is found by all paths to its place, and no other file changes. -/
theorem get?_save (path contents other : String) : ∀ files : MemoryFiles,
    get? (save path contents files) other =
      if Path.parts other = Path.parts path then some contents else get? files other
  | [] => get?_cons other path contents []
  | (p, c) :: rest => by
    rw [save]
    split
    next => exact get?_cons other path contents _
    next heq =>
      have hsame : Path.parts path = Path.parts p := Path.comparePartLists_eq_iff.1 heq
      rw [get?_cons, get?_cons, hsame]
      split <;> rfl
    next hgt =>
      have hdiff : Path.parts path ≠ Path.parts p := Path.parts_ne_of_compare (by rw [hgt]; decide)
      rw [get?_cons, get?_save path contents other rest, get?_cons]
      by_cases hp : Path.parts other = Path.parts p
      · rw [if_pos hp, if_pos hp, if_neg (hp ▸ Ne.symm hdiff)]
      · rw [if_neg hp, if_neg hp]

/-- Memory takes every file. -/
theorem writeAll_eq : ∀ (files : List OutputFile) (state : MemoryFiles),
    (sink.writeAll "" state files).1 = files.foldl (fun state f => save f.path f.contents state) state
  | [], _ => rfl
  | f :: rest, state => by
    rw [List.foldl_cons, ← writeAll_eq rest, Sink.writeAll, Path.join_empty]
    simp only [sink]
    split
    next heq => rw [heq]
    next heq => rw [heq]

/-- Files that are written to other places do not change what is read. -/
theorem get?_foldl_of_ne {other : String} : ∀ {files : List OutputFile} {state : MemoryFiles},
    (∀ f ∈ files, Path.parts other ≠ Path.parts f.path) →
      get? (files.foldl (fun state f => save f.path f.contents state) state) other = get? state other
  | [], _, _ => rfl
  | f :: rest, state, h => by
    rw [List.foldl_cons, get?_foldl_of_ne fun g hg => h g (List.mem_cons_of_mem _ hg), get?_save,
      if_neg (h f List.mem_cons_self)]

/-- Files that go to different places are all kept. -/
theorem get?_writeAll {file : OutputFile} : ∀ {files : List OutputFile} (state : MemoryFiles),
    files.Pairwise (fun a b => Path.parts a.path ≠ Path.parts b.path) → file ∈ files →
      get? (sink.writeAll "" state files).1 file.path = some file.contents
  | f :: rest, state, h, hmem => by
    obtain ⟨hf, hrest⟩ := List.pairwise_cons.1 h
    rcases List.mem_cons.1 hmem with rfl | hmem
    · rw [writeAll_eq, List.foldl_cons, get?_foldl_of_ne hf, get?_save, if_pos rfl]
    · have hkept := get?_writeAll (save f.path f.contents state) hrest hmem
      rwa [writeAll_eq] at hkept ⊢

end FlatSchema.MemoryFiles
