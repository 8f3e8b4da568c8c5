import FlatSchema.Proofs.Resolution
import FlatSchema.Proofs.WriterGrowth

/-!
# Documentation in comments

Documentation is written behind the mark of a comment, one text after the other. A text may hold line breaks, keys that are replaced,
and a backslash at its end, by which the next line is continued. The lines that come out are got from the pieces between line breaks
by joining every piece that is continued with the next (`Writer.spliced`). So it can be said exactly when all of them stand behind the
mark (`Writer.comment_stays_iff`).
-/

namespace FlatSchema

/-! ## Pieces between line breaks -/

/-- A piece holds no separator and is a part of the text. -/
theorem mem_splitOn {x : Char} {s l : List Char} : l ∈ s.splitOn x → x ∉ l ∧ l <:+: s := by
  induction s using splitOn_induction (x := x) with
  | piece s hs =>
    intro h
    rw [List.splitOn_eq_singleton hs, List.mem_singleton] at h
    rw [h]
    exact ⟨hs, List.infix_refl s⟩
  | more front rest hfront ih =>
    intro h
    rw [List.splitOn_append_cons_self, List.splitOn_eq_singleton hfront, List.singleton_append, List.mem_cons] at h
    rcases h with rfl | h
    · exact ⟨hfront, (List.prefix_append l _).isInfix⟩
    · obtain ⟨hx, hinfix⟩ := ih h
      exact ⟨hx, hinfix.trans ((List.suffix_cons x rest).trans (List.suffix_append front _)).isInfix⟩

theorem joined_append (a b : List String) : joined (a ++ b) = joined a ++ joined b := by
  simp [joined]

/-- The pieces of a text, each with a line break, are the text with a line break. -/
theorem joined_splitOn (s : List Char) : joined ((s.splitOn '\n').map String.ofList) = String.ofList s ++ "\n" := by
  induction s using splitOn_induction (x := '\n') with
  | piece s hs =>
    rw [List.splitOn_eq_singleton hs]
    simp [joined]
  | more front rest hfront ih =>
    rw [List.splitOn_append_cons_self, List.splitOn_eq_singleton hfront, List.map_append, joined_append, ih]
    simp [joined, String.ofList_append, String.append_assoc]

/-- The lines of a text of blocks are those of each block. -/
theorem splitOn_joined_blocks (bs : List String) :
    (joined bs).toList.splitOn '\n' = (bs.flatMap fun b => b.toList.splitOn '\n') ++ [[]] := by
  induction bs with
  | nil => exact List.splitOn_nil '\n'
  | cons b bs ih =>
    have hcons : (joined (b :: bs)).toList = b.toList ++ '\n' :: (joined bs).toList := by simp [joined]
    rw [hcons, List.splitOn_append_cons_self, ih, List.flatMap_cons, List.append_assoc]

/-- Whether a text is made of lines with a property can be seen from its parts. -/
theorem lines_iff {P : List Char → Prop} {bs : List String} :
    (∃ lines : List String, joined bs = joined lines ∧ ∀ l ∈ lines, '\n' ∉ l.toList ∧ P l.toList) ↔
      ∀ b ∈ bs, ∀ l ∈ b.toList.splitOn '\n', P l := by
  constructor
  · rintro ⟨lines, htext, hlines⟩ b hb l hl
    have hsplit := congrArg (fun text => text.toList.splitOn '\n') htext
    simp only [splitOn_joined_blocks bs, splitOn_joined fun l hl => (hlines l hl).1] at hsplit
    have hmem : l ∈ lines.map String.toList := by
      rw [← List.append_cancel_right hsplit]
      exact List.mem_flatMap.2 ⟨b, hb, hl⟩
    obtain ⟨line, hline, rfl⟩ := List.mem_map.1 hmem
    exact (hlines line hline).2
  · intro h
    refine ⟨bs.flatMap fun b => (b.toList.splitOn '\n').map String.ofList, ?_, ?_⟩
    · induction bs with
      | nil => rfl
      | cons b bs ih =>
        rw [List.flatMap_cons, joined_append, joined_splitOn, ← ih fun c hc => h c (List.mem_cons_of_mem b hc)]
        simp [joined]
    · intro l hl
      obtain ⟨b, hb, hl⟩ := List.mem_flatMap.1 hl
      obtain ⟨piece, hpiece, rfl⟩ := List.mem_map.1 hl
      rw [String.toList_ofList]
      exact ⟨(mem_splitOn hpiece).1, h b hb piece hpiece⟩

/-! ## Lines that are continued -/

namespace Writer

/-- Lines joined with those that continue them: the backslash at the end of a line stands for what is in the next. -/
def spliced : List (List Char) → List (List Char)
  | [] => []
  | p :: rest =>
    if p.getLast? = some '\\' then
      match spliced rest with
      | [] => [p.dropLast]
      | m :: ms => (p.dropLast ++ m) :: ms
    else p :: spliced rest

/-- Pieces that are complete are lines of their own. -/
theorem spliced_of_complete : ∀ {ps : List (List Char)}, (∀ p ∈ ps, p.getLast? ≠ some '\\') → spliced ps = ps
  | [], _ => rfl
  | p :: rest, h => by
    rw [spliced, if_neg (h p List.mem_cons_self), spliced_of_complete fun q hq => h q (List.mem_cons_of_mem p hq)]

/-- Appends a line whose keys are replaced. -/
def putPiece (w : Writer) (s : List Char) : Writer :=
  if s.isEmpty && !w.pending then { w with text := w.text ++ "\n" }
  else
    let lead := if w.pending then "" else w.indentation
    if s.getLast? = some '\\' then { w with text := w.text ++ lead ++ String.ofList s.dropLast, pending := true }
    else { w with text := w.text ++ lead ++ String.ofList s ++ "\n", pending := false }

/-- What stands in front of the next piece: nothing if it continues a line. -/
def opening (w : Writer) : String := if w.pending then "" else w.indentation

/-- A piece that ends with a backslash leaves its line open. -/
theorem putPiece_continued (w : Writer) {s : List Char} (h : s.getLast? = some '\\') :
    w.putPiece s = { w with text := w.text ++ (w.opening ++ String.ofList s.dropLast), pending := true } := by
  have hne : s.isEmpty = false := by
    cases s with
    | nil => cases h
    | cons => rfl
  unfold putPiece opening
  simp [hne, h, String.append_assoc]

/-- The text of a piece that ends its line: an empty one is written without blanks in front. -/
theorem putPiece_complete (w : Writer) {s : List Char} (h : s.getLast? ≠ some '\\') :
    ∃ b, (b = w.opening ++ String.ofList s ∨ (b = "" ∧ s = [] ∧ w.pending = false)) ∧
      w.putPiece s = { w with text := w.text ++ (b ++ "\n"), pending := false } := by
  unfold putPiece opening
  by_cases hempty : (s.isEmpty && !w.pending) = true
  · rw [if_pos hempty]
    simp only [Bool.and_eq_true, List.isEmpty_iff, Bool.not_eq_true'] at hempty
    refine ⟨"", .inr ⟨rfl, hempty⟩, ?_⟩
    simp [← hempty.2]
  · rw [if_neg hempty]
    refine ⟨_, .inl rfl, ?_⟩
    simp [h, String.append_assoc]

/-- How a line is written: behind the indentation, though an empty line may go without it. -/
def IsBlock (indentation b : String) (m : List Char) : Prop := b = indentation ++ String.ofList m ∨ (b = "" ∧ m = [])

/-- Pieces of which the last one ends its line are written as the lines that they make up. The first of them may continue a line. -/
theorem foldl_putPiece_cons : ∀ (rest : List (List Char)) (p : List Char) (w : Writer),
    (∀ q ∈ (p :: rest).getLast?, q.getLast? ≠ some '\\') →
    ∃ m ms b bs, spliced (p :: rest) = m :: ms ∧ (b = w.opening ++ String.ofList m ∨ (b = "" ∧ m = [] ∧ w.pending = false)) ∧
      List.Forall₂ (IsBlock w.indentation) bs ms ∧ ((p :: rest).foldl putPiece w).text = w.text ++ joined (b :: bs)
  | rest, p, w, hlast => by
    by_cases hp : p.getLast? = some '\\'
    · cases rest with
      | nil => exact absurd hp (hlast p rfl)
      | cons q rest =>
        -- the line goes on with the next piece, so that the block begins here
        have hw := putPiece_continued w hp
        obtain ⟨m, ms, b, bs, hspliced, hb, hbs, htext⟩ := foldl_putPiece_cons rest q (w.putPiece p) (by simpa using hlast)
        have hb : b = String.ofList m := by
          rw [hw] at hb
          rcases hb with hb | ⟨_, _, hno⟩
          · exact hb.trans String.empty_append
          · cases hno
        refine ⟨p.dropLast ++ m, ms, w.opening ++ String.ofList (p.dropLast ++ m), bs, ?_, .inl rfl, ?_, ?_⟩
        · rw [spliced, if_pos hp, hspliced]
        · rw [hw] at hbs
          exact hbs
        · rw [List.foldl_cons, htext, hw, hb]
          simp [joined, String.ofList_append, String.append_assoc]
    · obtain ⟨b, hb, hw⟩ := putPiece_complete w hp
      cases rest with
      | nil =>
        refine ⟨p, [], b, [], by rw [spliced, if_neg hp, spliced], hb, .nil, ?_⟩
        rw [List.foldl_cons, List.foldl_nil, hw]
        simp [joined]
      | cons q rest =>
        obtain ⟨m, ms, b', bs, hspliced, hb', hbs, htext⟩ := foldl_putPiece_cons rest q (w.putPiece p) (by simpa using hlast)
        rw [hw] at hb' hbs
        refine ⟨p, m :: ms, b, b' :: bs, by rw [spliced, if_neg hp, hspliced], hb, .cons ?_ hbs, ?_⟩
        · exact hb'.imp id fun hempty => ⟨hempty.1, hempty.2.1⟩
        · rw [List.foldl_cons, htext, hw]
          simp [joined, String.append_assoc]

/-- Pieces are written, from the start of a line on, as the lines that they make up. -/
theorem foldl_putPiece {ps : List (List Char)} {w : Writer} (hw : w.pending = false)
    (hlast : ∀ q ∈ ps.getLast?, q.getLast? ≠ some '\\') :
    ∃ bs, List.Forall₂ (IsBlock w.indentation) bs (spliced ps) ∧ (ps.foldl putPiece w).text = w.text ++ joined bs := by
  cases ps with
  | nil => exact ⟨[], .nil, by simp [joined]⟩
  | cons p rest =>
    obtain ⟨m, ms, b, bs, hspliced, hb, hbs, htext⟩ := foldl_putPiece_cons rest p w hlast
    have hopening : w.opening = w.indentation := by
      rw [opening, hw]
      rfl
    rw [hopening] at hb
    refine ⟨b :: bs, hspliced ▸ .cons ?_ hbs, htext⟩
    exact hb.imp id fun hempty => ⟨hempty.1, hempty.2.1⟩

/-- A line is left to be continued exactly if the last piece ends with a backslash. -/
theorem foldl_putPiece_pending {ps : List (List Char)} {w : Writer} (hw : w.pending = false) :
    (ps.foldl putPiece w).pending = false ↔ ∀ q ∈ ps.getLast?, q.getLast? ≠ some '\\' := by
  rcases List.eq_nil_or_concat ps with rfl | ⟨front, q, rfl⟩
  · simp [hw]
  · rw [List.concat_eq_append, List.foldl_concat, List.getLast?_concat]
    by_cases hq : q.getLast? = some '\\'
    · rw [putPiece_continued _ hq]
      simp [hq]
    · obtain ⟨_, _, hput⟩ := putPiece_complete (front.foldl putPiece w) hq
      rw [hput]
      simp [hq]

/-! ## Comments -/

/-- The pieces of a comment, with their keys replaced. -/
def commentPieces (w : Writer) (mark : String) (docs : List String) : List (List Char) :=
  docs.flatMap fun d => ((commentLine mark d).toList.splitOn '\n').map (substitute w.values)

/-- Lines are put with their values filled in. -/
theorem foldl_putLine_eq : ∀ (ss : List (List Char)) (w : Writer),
    ss.foldl putLine w = (ss.map (substitute w.values)).foldl putPiece w
  | [], _ => rfl
  | s :: ss, w => by
    rw [List.foldl_cons, foldl_putLine_eq ss, (putLine_values w s).2]
    rfl

/-- A comment is put piece by piece. -/
theorem comment_eq (w : Writer) (mark : String) (docs : List String) :
    w.comment mark docs = (w.commentPieces mark docs).foldl putPiece w := by
  induction docs generalizing w with
  | nil => rfl
  | cons d docs ih =>
    have hcons : w.comment mark (d :: docs) = (w.line (commentLine mark d)).comment mark docs := by
      rw [comment, List.foldl_cons, comment]
    have hvalues : (w.line (commentLine mark d)).values = w.values :=
      (foldl_putLine_values w ((commentLine mark d).toList.splitOn '\n')).2
    rw [hcons, ih, commentPieces, commentPieces, hvalues, List.flatMap_cons, List.foldl_append, line, foldl_putLine_eq]

/-- The marks of comments that documentation is written behind. -/
def commentMarks : List String := ["/// ", "// ", "-- "]

/-- Documentation stays in its comment: every line that is added starts with the indentation and the mark, and what is written next
starts a new line. -/
def StaysInComment (w : Writer) (mark : String) (docs : List String) : Prop :=
  (∃ lines : List String, (w.comment mark docs).text = w.text ++ joined lines ∧
    ∀ l ∈ lines, '\n' ∉ l.toList ∧ (w.indentation ++ trimmedEnd mark).toList <+: l.toList) ∧
  (w.comment mark docs).pending = false

/-- Blocks and the lines that they are made from stand behind a mark alike: an empty line does not, with or without indentation. -/
theorem IsBlock.behind_iff {indentation mark b : String} {m : List Char} (h : IsBlock indentation b m) (hmark : mark ≠ "") :
    (∀ l ∈ b.toList.splitOn '\n', (indentation ++ mark).toList <+: l) ↔
      ∀ l ∈ (indentation.toList ++ m).splitOn '\n', (indentation ++ mark).toList <+: l := by
  rcases h with rfl | ⟨rfl, rfl⟩
  · rw [String.toList_append, String.toList_ofList]
  · have hlength : 0 < mark.toList.length := List.length_pos_iff.2 fun hnil => hmark (String.toList_inj.1 hnil)
    rw [String.toList_append, List.append_nil]
    refine iff_of_false (fun hall => ?_) fun hall => ?_
    · have hle := (hall [] List.mem_cons_self).length_le
      rw [List.length_append] at hle
      simp only [List.length_nil] at hle
      omega
    · obtain ⟨l, hl⟩ := List.exists_mem_of_ne_nil _ (List.splitOn_ne_nil '\n' indentation.toList)
      have hle := (hall l hl).length_le.trans (mem_splitOn hl).2.length_le
      rw [List.length_append] at hle
      omega

theorem forall_mem_iff_of_forall₂ {R : String → List Char → Prop} {P : String → Prop} {Q : List Char → Prop}
    (hR : ∀ b m, R b m → (P b ↔ Q m)) {bs : List String} {ms : List (List Char)} (h : List.Forall₂ R bs ms) :
    (∀ b ∈ bs, P b) ↔ ∀ m ∈ ms, Q m := by
  induction h with
  | nil => simp
  | cons hbm _ ih => rw [List.forall_mem_cons, List.forall_mem_cons, hR _ _ hbm, ih]

/-- A comment stays if its last piece is complete and each line that the pieces are spliced to starts with the mark. -/
theorem stays_iff {w : Writer} (hw : w.pending = false) {mark : String} (hmark : trimmedEnd mark ≠ "") (docs : List String) :
    w.StaysInComment mark docs ↔ (∀ q ∈ (w.commentPieces mark docs).getLast?, q.getLast? ≠ some '\\') ∧
      ∀ m ∈ spliced (w.commentPieces mark docs), ∀ l ∈ (w.indentation.toList ++ m).splitOn '\n',
        (w.indentation ++ trimmedEnd mark).toList <+: l := by
  rw [StaysInComment, comment_eq, foldl_putPiece_pending hw, and_comm]
  refine and_congr_right fun hlast => ?_
  obtain ⟨bs, hbs, htext⟩ := foldl_putPiece hw hlast
  rw [htext]
  simp only [String.append_right_inj]
  rw [lines_iff (P := fun l => (w.indentation ++ trimmedEnd mark).toList <+: l)]
  exact forall_mem_iff_of_forall₂ (fun b m hb => hb.behind_iff hmark) hbs

/-! ## Texts that stay in their comment -/

/-- A character other than the one looked for is passed over. -/
theorem cutPair_cons {c x : Char} (h : x ≠ c) (s : List Char) : cutPair c (x :: s) = (cutPair c s).map fun p => (x :: p.1, p.2) := by
  cases s with
  | nil => rfl
  | cons y s => rw [cutPair, if_neg fun hboth => h hboth.1]

/-- A text without the character is passed over. -/
theorem cutPair_append {c : Char} {a : List Char} (h : c ∉ a) (s : List Char) :
    cutPair c (a ++ s) = (cutPair c s).map fun p => (a ++ p.1, p.2) := by
  induction a with
  | nil => exact Option.map_id'.symm
  | cons x a ih =>
    rw [List.mem_cons, not_or] at h
    rw [List.cons_append, cutPair_cons (Ne.symm h.1), ih h.2, Option.map_map]
    rfl

/-- What stands in front of all keys stays. -/
theorem substitute_append {values : List (String × String)} {a : List Char} (h : '\x7b' ∉ a) (s : List Char) :
    substitute values (a ++ s) = a ++ substitute values s := by
  rw [substitute_eq, substitute_eq values s, cutPair_append h]
  cases cutPair '\x7b' s with
  | none => rfl
  | some p =>
    simp only [Option.map_some]
    cases cutPair '\x7d' p.2 with
    | none => rfl
    | some q => simp only [List.append_assoc]

/-- What makes up the start of a comment: it holds no line break and no key, and it ends with no backslash. -/
structure IsLead (lead : List Char) : Prop where
  noBreak : '\n' ∉ lead
  noKey : '\x7b' ∉ lead
  ended : lead.getLast? ≠ some '\\'

/-- The marks of comments, with or without the blank at their end. -/
theorem isLead_of_mem {mark : String} (h : mark ∈ commentMarks) :
    IsLead mark.toList ∧ IsLead (trimmedEnd mark).toList ∧ (trimmedEnd mark).toList <+: mark.toList ∧ trimmedEnd mark ≠ "" := by
  simp only [commentMarks, List.mem_cons, List.not_mem_nil, or_false] at h
  rcases h with rfl | rfl | rfl
  · exact ⟨⟨by decide, by decide, by decide⟩, ⟨by decide, by decide, by decide⟩, by decide, by decide⟩
  · exact ⟨⟨by decide, by decide, by decide⟩, ⟨by decide, by decide, by decide⟩, by decide, by decide⟩
  · exact ⟨⟨by decide, by decide, by decide⟩, ⟨by decide, by decide, by decide⟩, by decide, by decide⟩

/-- A line of documentation is the text behind the mark, or behind the mark without its blank if there is no text. -/
theorem commentLine_eq {mark : String} (h : mark ∈ commentMarks) (doc : String) :
    ∃ lead, IsLead lead ∧ (trimmedEnd mark).toList <+: lead ∧ (commentLine mark doc).toList = lead ++ (trimmedEnd doc).toList := by
  obtain ⟨hmark, htrimmed, hstart, _⟩ := isLead_of_mem h
  by_cases hempty : trimmedEnd doc = ""
  · exact ⟨(trimmedEnd mark).toList, htrimmed, List.prefix_refl _, by simp [commentLine, hempty]⟩
  · exact ⟨mark.toList, hmark, hstart, by simp [commentLine, hempty]⟩

/-- A text that takes one line: it has no line break, and none comes in with the value of a key, and it ends with no backslash. -/
def OneLine (values : List (String × String)) (doc : String) : Prop :=
  '\n' ∉ (trimmedEnd doc).toList ∧ '\n' ∉ substitute values (trimmedEnd doc).toList ∧
    (substitute values (trimmedEnd doc).toList).getLast? ≠ some '\\'

instance (values : List (String × String)) (doc : String) : Decidable (OneLine values doc) := inferInstanceAs (Decidable (_ ∧ _ ∧ _))

/-- A text that takes one line is one piece, which starts with the mark. -/
theorem OneLine.pieces {values : List (String × String)} {mark doc : String} (hdoc : OneLine values doc) (hmark : mark ∈ commentMarks) :
    ∀ p ∈ ((commentLine mark doc).toList.splitOn '\n').map (substitute values),
      '\n' ∉ p ∧ p.getLast? ≠ some '\\' ∧ (trimmedEnd mark).toList <+: p := by
  obtain ⟨hbreak, hbreak', hlast⟩ := hdoc
  obtain ⟨lead, hlead, hstart, hline⟩ := commentLine_eq hmark doc
  have hone : '\n' ∉ (commentLine mark doc).toList := by
    rw [hline, List.mem_append, not_or]
    exact ⟨hlead.noBreak, hbreak⟩
  intro p hp
  rw [List.splitOn_eq_singleton hone, List.map_singleton, hline, substitute_append hlead.noKey, List.mem_singleton] at hp
  rw [hp]
  refine ⟨?_, ?_, hstart.trans (List.prefix_append _ _)⟩
  · rw [List.mem_append, not_or]
    exact ⟨hlead.noBreak, hbreak'⟩
  · rw [List.getLast?_append]
    cases hend : (substitute values (trimmedEnd doc).toList).getLast? with
    | none => exact hlead.ended
    | some c =>
      rw [hend] at hlast
      exact hlast

/-- Documentation stays in its comment if every text takes one line. -/
theorem stays_of_oneLine {w : Writer} (hw : w.pending = false) (hindent : '\n' ∉ w.indentation.toList) {mark : String}
    (hmark : mark ∈ commentMarks) {docs : List String} (h : ∀ d ∈ docs, OneLine w.values d) : w.StaysInComment mark docs := by
  have hpieces : ∀ p ∈ w.commentPieces mark docs, '\n' ∉ p ∧ p.getLast? ≠ some '\\' ∧ (trimmedEnd mark).toList <+: p := by
    intro p hp
    obtain ⟨d, hd, hp⟩ := List.mem_flatMap.1 hp
    exact (h d hd).pieces hmark p hp
  refine (stays_iff hw (isLead_of_mem hmark).2.2.2 docs).2 ⟨fun q hq => (hpieces q (List.mem_of_getLast? hq)).2.1, ?_⟩
  rw [spliced_of_complete fun p hp => (hpieces p hp).2.1]
  intro m hm l hl
  have hone : '\n' ∉ w.indentation.toList ++ m := by
    rw [List.mem_append, not_or]
    exact ⟨hindent, (hpieces m hm).1⟩
  rw [List.splitOn_eq_singleton hone, List.mem_singleton] at hl
  rw [hl, String.toList_append]
  exact List.prefix_append_right_inj _ |>.2 (hpieces m hm).2.2

/-- Documentation that is written from the start of a line on stays in its comment exactly if the last of its pieces between line
breaks is not continued, and all lines that the pieces make up stand behind the mark. It does if the indentation has no line break
and every text takes one line. -/
theorem comment_stays_iff (w : Writer) (hw : w.pending = false) (mark : String) (hmark : mark ∈ commentMarks) (docs : List String) :
    (w.StaysInComment mark docs ↔ (∀ q ∈ (w.commentPieces mark docs).getLast?, q.getLast? ≠ some '\\') ∧
      ∀ m ∈ spliced (w.commentPieces mark docs), ∀ l ∈ (w.indentation.toList ++ m).splitOn '\n',
        (w.indentation ++ trimmedEnd mark).toList <+: l) ∧
    ('\n' ∉ w.indentation.toList → (∀ d ∈ docs, OneLine w.values d) → w.StaysInComment mark docs) :=
  ⟨stays_iff hw (isLead_of_mem hmark).2.2.2 docs, fun hindent h => stays_of_oneLine hw hindent hmark h⟩

/-- A comment with values to fill in, a backslash in its middle and an empty line stays. -/
theorem comment_stays_between : StaysInComment { unit := "  ", level := 1, values := [("NAME", "Monster")] } "-- "
    ["A \x7b\x7bNAME\x7d\x7d in C:\\tmp ", "", "\x7b\x7bother\x7d\x7d"] := by
  refine (comment_stays_iff _ rfl "-- " (by decide) _).2 (by decide) fun d hd => ?_
  simp only [List.mem_cons, List.not_mem_nil, or_false] at hd
  rcases hd with rfl | rfl | rfl
  · exact ⟨by decide +kernel, by decide +kernel, by decide +kernel⟩
  · exact ⟨by decide +kernel, by decide +kernel, by decide +kernel⟩
  · exact ⟨by decide +kernel, by decide +kernel, by decide +kernel⟩

end Writer

/-- A table whose documentation has a line break, with a field whose documentation ends with a backslash. -/
def escapingDoc : SchemaDoc where
  structs := [{ name := "T", doc := ["one\ntwo"], fields := [{ name := "x", type := "int", doc := ["in C:\\"] }] }]

/-- A line of the documentation of the table stands without a mark, and that of the field is continued by what is written next. -/
theorem escapingDoc_escapes : ∃ s, Schema.ofDocument escapingDoc = .ok s ∧
    s.structs.map (fun d => (d.doc, d.fields.map (·.doc))) = [(["one\ntwo"], [["in C:\\"]])] ∧
    (Writer.comment {} "/// " ["one\ntwo"]).text = "/// one\ntwo\n" ∧ ¬Writer.StaysInComment {} "/// " ["one\ntwo"] ∧
    (Writer.comment {} "/// " ["in C:\\"]).text = "/// in C:" ∧ ¬Writer.StaysInComment {} "/// " ["in C:\\"] := by
  obtain ⟨s, hs, hdocs⟩ := Schema.exists_ofDocument escapingDoc (fun s => s.structs.map fun d => (d.doc, d.fields.map (·.doc)))
    [(["one\ntwo"], [["in C:\\"]])] (by decide +kernel)
  refine ⟨s, hs, hdocs, by decide +kernel, fun h => ?_, by decide +kernel, fun h => ?_⟩
  · have hbehind := ((Writer.stays_iff rfl (by decide) _).1 h).2 ['t', 'w', 'o'] (by decide +kernel) ['t', 'w', 'o'] (by decide +kernel)
    exact absurd hbehind (by decide)
  · have hpending : (Writer.comment {} "/// " ["in C:\\"]).pending = true := by decide +kernel
    exact absurd (hpending.symm.trans h.2) (by decide)

end FlatSchema
