import Mathlib.Data.List.DropRight
import Mathlib.Data.List.Forall2
import Mathlib.Data.List.TakeWhile
import TwinForest.Atom

/-!
# Lines of comments

A comment that runs over several lines is compared by its lines. It is cut at every line break, each
piece loses the blanks in front of it, and line feeds join what is left. No two sequences of lines become
one text in this way: lines have no line break, so the joined text is cut into the same lines again. For
the same reason the number of line breaks stays what it was, and a second pass has nothing left to do.

`Atom.HasLines` tells the lines of a text without the functions that find them.
-/

namespace TwinForest.Atom

/-! ## Line breaks -/

def OneLine (cs : List Char) : Prop :=
  '\r' ∉ cs ∧ '\n' ∉ cs

theorem isBreak_iff {c : Char} : isBreak c = true ↔ c = '\r' ∨ c = '\n' := by
  simp [isBreak]

theorem oneLine_iff {cs : List Char} : OneLine cs ↔ ∀ c ∈ cs, isBreak c = false := by
  constructor
  · rintro ⟨hreturn, hfeed⟩ c hc
    refine Bool.eq_false_iff.mpr fun hbreak => ?_
    rcases isBreak_iff.mp hbreak with rfl | rfl
    · exact hreturn hc
    · exact hfeed hc
  · intro h
    exact ⟨fun hc => absurd (h _ hc) (by decide), fun hc => absurd (h _ hc) (by decide)⟩

theorem not_oneLine_iff {cs : List Char} : ¬OneLine cs ↔ '\r' ∈ cs ∨ '\n' ∈ cs := by
  rw [OneLine, Decidable.not_and_iff_or_not, Decidable.not_not, Decidable.not_not]

theorem any_isBreak_iff {cs : List Char} : cs.any isBreak = true ↔ ¬OneLine cs := by
  simp [oneLine_iff]

theorem OneLine.cons {cs : List Char} (h : OneLine cs) {c : Char} (hc : isBreak c = false) :
    OneLine (c :: cs) :=
  oneLine_iff.mpr (List.forall_mem_cons.mpr ⟨hc, oneLine_iff.mp h⟩)

theorem OneLine.countP_isBreak {cs : List Char} (h : OneLine cs) : cs.countP isBreak = 0 := by
  rw [List.countP_eq_zero]
  exact fun c hc => by simp [oneLine_iff.mp h c hc]

/-! ## Lines -/

/-- The text is cut into the pieces between its line breaks. -/
inductive Cut : List Char → List (List Char) → Prop where
  | last {piece : List Char} : OneLine piece → Cut piece [piece]
  | more {piece rest : List Char} {pieces : List (List Char)} {c : Char} :
      OneLine piece → c = '\r' ∨ c = '\n' → Cut rest pieces →
        Cut (piece ++ c :: rest) (piece :: pieces)

/-- The line is the piece without the blanks in front of it, of which none is left. -/
def Strips (piece line : List Char) : Prop :=
  ∃ indent, piece = indent ++ line ∧ (∀ c ∈ indent, Text.isBlank c = true) ∧
    ∀ c ∈ line.head?, Text.isBlank c = false

def HasLines (cs : List Char) (lines : List (List Char)) : Prop :=
  ∃ pieces, Cut cs pieces ∧ List.Forall₂ Strips pieces lines

/-- A character that does not break the line comes to the first piece. -/
theorem Cut.cons {cs : List Char} {pieces : List (List Char)} (h : Cut cs pieces) {c : Char}
    (hc : isBreak c = false) : Cut (c :: cs) (pieces.modifyHead (c :: ·)) := by
  cases h with
  | last hpiece => exact .last (hpiece.cons hc)
  | more hpiece hbreak hrest => exact .more (hpiece.cons hc) hbreak hrest

theorem cut_splitOnP (cs : List Char) : Cut cs (cs.splitOnP isBreak) := by
  have hnil : OneLine [] := by simp [OneLine]
  induction cs with
  | nil => exact .last hnil
  | cons c cs ih =>
    rw [List.splitOnP_cons_eq_if_modifyHead]
    split
    · rename_i hbreak
      exact .more hnil (isBreak_iff.mp hbreak) ih
    · rename_i hbreak
      exact ih.cons (Bool.eq_false_iff.mpr hbreak)

theorem cut_iff {cs : List Char} {pieces : List (List Char)} :
    Cut cs pieces ↔ cs.splitOnP isBreak = pieces := by
  constructor
  · intro h
    induction h with
    | last hpiece => exact List.splitOnP_eq_singleton (oneLine_iff.mp hpiece)
    | more hpiece hbreak _ ih =>
      rw [List.splitOnP_append_cons_of_forall_mem (oneLine_iff.mp hpiece) _
        (isBreak_iff.mpr hbreak), ih]
  · rintro rfl
    exact cut_splitOnP cs

theorem strips_iff {piece line : List Char} : Strips piece line ↔ Text.trimStart piece = line := by
  constructor
  · rintro ⟨indent, rfl, hindent, hline⟩
    rw [Text.trimStart, List.dropWhile_append_of_pos hindent]
    cases line with
    | nil => rfl
    | cons c cs => exact List.dropWhile_cons_of_neg (by simp [hline c rfl])
  · rintro rfl
    refine ⟨piece.takeWhile Text.isBlank, List.takeWhile_append_dropWhile.symm, ?_, ?_⟩
    · exact fun c hc => List.mem_takeWhile_imp hc
    · intro c hc
      have hhead := List.head?_dropWhile_not Text.isBlank piece
      rw [Text.trimStart, Option.mem_def] at hc
      simpa [hc] using hhead

/-- A text has the lines that are found for it, and no others. -/
theorem hasLines_iff {cs : List Char} {ls : List (List Char)} : HasLines cs ls ↔ lines cs = ls := by
  have hstrips : Strips = fun piece line => Text.trimStart piece = line := by
    funext piece line
    exact propext strips_iff
  simp only [HasLines, cut_iff, exists_eq_left', hstrips, lines]
  rw [← List.forall₂_map_left_iff, List.forall₂_eq_eq_eq]

/-! ## Pieces and joined lines -/

theorem Cut.oneLine {cs : List Char} {pieces : List (List Char)} (h : Cut cs pieces) :
    ∀ piece ∈ pieces, OneLine piece := by
  induction h with
  | last hpiece => exact List.forall_mem_singleton.mpr hpiece
  | more hpiece _ _ ih => exact List.forall_mem_cons.mpr ⟨hpiece, ih⟩

/-- There is one piece more than there are line breaks. -/
theorem Cut.length_eq {cs : List Char} {pieces : List (List Char)} (h : Cut cs pieces) :
    pieces.length = cs.countP isBreak + 1 := by
  induction h with
  | last hpiece => rw [hpiece.countP_isBreak, List.length_singleton]
  | more hpiece hbreak _ ih =>
    rw [List.countP_append, hpiece.countP_isBreak, List.countP_cons_of_pos (isBreak_iff.mpr hbreak),
      List.length_cons, ih, Nat.zero_add]

/-- Lines without line breaks are what their joined text is cut into. -/
theorem cut_intercalate {ls : List (List Char)} (hne : ls ≠ []) (h : ∀ l ∈ ls, OneLine l) :
    Cut (List.intercalate ['\n'] ls) ls := by
  induction ls with
  | nil => exact absurd rfl hne
  | cons l ls ih =>
    obtain ⟨hl, hls⟩ := List.forall_mem_cons.mp h
    cases ls with
    | nil =>
      rw [List.intercalate_singleton]
      exact .last hl
    | cons m ls =>
      rw [List.intercalate_cons_cons, List.append_assoc, List.singleton_append]
      exact .more hl (.inr rfl) (ih (List.cons_ne_nil m ls) hls)

theorem length_lines (cs : List Char) : (lines cs).length = cs.countP isBreak + 1 := by
  rw [lines, List.length_map, (cut_splitOnP cs).length_eq]

theorem oneLine_of_mem_lines {cs l : List Char} (hl : l ∈ lines cs) : OneLine l := by
  obtain ⟨piece, hpiece, rfl⟩ := List.mem_map.mp hl
  have hwhole := oneLine_iff.mp ((cut_splitOnP cs).oneLine piece hpiece)
  exact oneLine_iff.mpr fun c hc => hwhole c (List.dropWhile_subset _ hc)

/-- The lines of a text are what they are cut into after they were joined. -/
theorem cut_lines (cs : List Char) : Cut (List.intercalate ['\n'] (lines cs)) (lines cs) := by
  refine cut_intercalate (List.ne_nil_of_length_pos ?_) fun l hl => oneLine_of_mem_lines hl
  rw [length_lines]
  exact Nat.succ_pos _

/-- The lines of a text have no blanks in front, so the joined text has the same lines. -/
theorem lines_intercalate_lines (cs : List Char) :
    lines (List.intercalate ['\n'] (lines cs)) = lines cs := by
  have hstripped : ∀ l ∈ lines cs, Text.trimStart l = l := by
    intro l hl
    obtain ⟨piece, -, rfl⟩ := List.mem_map.mp hl
    exact List.dropWhile_idempotent _ _
  rw [lines, cut_iff.mp (cut_lines cs)]
  exact (List.map_congr_left hstripped).trans (List.map_id' _)

/-! ## Comments -/

def comment (position : List Span) (content : String) : Atom :=
  ⟨position, content, .comment⟩

variable {c d : String} (position position' : List Span)

theorem normalizedContent_of_oneLine (hc : OneLine c.toList) :
    (comment position c).normalizedContent = c :=
  if_neg fun h => any_isBreak_iff.mp h.2 hc

theorem toList_normalizedContent (hc : ¬OneLine c.toList) :
    (comment position c).normalizedContent.toList = List.intercalate ['\n'] (lines c.toList) := by
  rw [normalizedContent, if_pos ⟨rfl, any_isBreak_iff.mpr hc⟩, String.toList_ofList]
  rfl

/-- Normalised comments have as many line breaks as before. -/
theorem countP_isBreak_normalizedContent (c : String) :
    (comment position c).normalizedContent.toList.countP isBreak = c.toList.countP isBreak := by
  by_cases hc : OneLine c.toList
  · rw [normalizedContent_of_oneLine position hc]
  · have hlength := (cut_lines c.toList).length_eq
    rw [length_lines] at hlength
    rw [toList_normalizedContent position hc]
    exact (Nat.succ.inj hlength).symm

/-- A comment on several lines has a line feed when it is normalised. -/
theorem feed_mem_normalizedContent (hc : ¬OneLine c.toList) :
    '\n' ∈ (comment position c).normalizedContent.toList := by
  have hbreaks : 0 < c.toList.countP isBreak :=
    List.countP_pos_iff.mpr (List.any_eq_true.mp (any_isBreak_iff.mpr hc))
  have hlength := length_lines c.toList
  rw [toList_normalizedContent position hc]
  match hlines : lines c.toList with
  | [] => simp [hlines] at hlength
  | [l] =>
    simp only [hlines, List.length_singleton] at hlength
    omega
  | l :: m :: ls => simp [List.intercalate_cons_cons]

theorem normalizedContent_eq_iff_lines (hc : ¬OneLine c.toList) (hd : ¬OneLine d.toList) :
    (comment position c).normalizedContent = (comment position' d).normalizedContent ↔
      lines c.toList = lines d.toList := by
  rw [← String.toList_inj, toList_normalizedContent position hc, toList_normalizedContent position' hd]
  constructor
  · intro h
    rw [← cut_iff.mp (cut_lines c.toList), ← cut_iff.mp (cut_lines d.toList), h]
  · intro h
    rw [h]

theorem normalizedContent_ne_of_oneLine (hc : ¬OneLine c.toList) (hd : OneLine d.toList) :
    (comment position c).normalizedContent ≠ (comment position' d).normalizedContent := by
  intro h
  have hfeed := feed_mem_normalizedContent position hc
  rw [h, normalizedContent_of_oneLine position' hd] at hfeed
  exact hd.2 hfeed

theorem normalizedContent_normalizedContent (c : String) :
    (comment position' (comment position c).normalizedContent).normalizedContent =
      (comment position c).normalizedContent := by
  by_cases hc : OneLine c.toList
  · rw [normalizedContent_of_oneLine position hc, normalizedContent_of_oneLine position' hc]
  · have hbreak : ¬OneLine (comment position c).normalizedContent.toList := fun h =>
      h.2 (feed_mem_normalizedContent position hc)
    rw [← String.toList_inj, toList_normalizedContent position' hbreak,
      toList_normalizedContent position hc, lines_intercalate_lines]

/-- Two comments with line breaks are compared by their lines: the normalised texts are equal exactly when
the lines are, of which every text has one sequence. A normalised text of several lines has a line feed and
is never that of a comment on one line. What is normalised stays as it is when it is normalised again. -/
theorem comments_compared_by_lines (hc : '\r' ∈ c.toList ∨ '\n' ∈ c.toList)
    (hd : '\r' ∈ d.toList ∨ '\n' ∈ d.toList) :
    (∃ ls ls', (∀ ms, HasLines c.toList ms ↔ ms = ls) ∧ (∀ ms, HasLines d.toList ms ↔ ms = ls') ∧
      ((comment position c).normalizedContent = (comment position' d).normalizedContent ↔ ls = ls')) ∧
    '\n' ∈ (comment position c).normalizedContent.toList ∧
    (∀ e : String, '\r' ∉ e.toList → '\n' ∉ e.toList →
      (comment position c).normalizedContent ≠ (comment position' e).normalizedContent) ∧
    ∀ e : String, (comment position' (comment position e).normalizedContent).normalizedContent =
      (comment position e).normalizedContent := by
  have hc := not_oneLine_iff.mpr hc
  have hd := not_oneLine_iff.mpr hd
  refine ⟨⟨lines c.toList, lines d.toList, ?_, ?_, ?_⟩, feed_mem_normalizedContent position hc, ?_, ?_⟩
  · exact fun ms => hasLines_iff.trans eq_comm
  · exact fun ms => hasLines_iff.trans eq_comm
  · exact normalizedContent_eq_iff_lines position position' hc hd
  · exact fun e hreturn hfeed => normalizedContent_ne_of_oneLine position position' hc ⟨hreturn, hfeed⟩
  · exact normalizedContent_normalizedContent position position'

/-- Three lines each, the second of them without text. Neither the kinds of their line breaks count nor the
blanks in front of them. On one line, the same words are another comment. -/
theorem comments_compared_by_lines_indented :
    (comment [] "/* a\r\n \tb */").normalizedContent =
      (comment [⟨0, 0, 4⟩] "  /* a\n \n b */").normalizedContent ∧
    (comment [] "/* a\r\n \tb */").normalizedContent ≠
      (comment [⟨0, 0, 4⟩] "/* a b */").normalizedContent := by
  obtain ⟨⟨ls, ls', hls, hls', hiff⟩, -, hne, -⟩ :=
    comments_compared_by_lines (c := "/* a\r\n \tb */") (d := "  /* a\n \n b */") [] [⟨0, 0, 4⟩]
      (by decide) (by decide)
  obtain rfl := (hls _).mp (hasLines_iff.mpr rfl)
  obtain rfl := (hls' _).mp (hasLines_iff.mpr rfl)
  exact ⟨hiff.mpr (by decide), hne _ (by decide) (by decide)⟩

end TwinForest.Atom
