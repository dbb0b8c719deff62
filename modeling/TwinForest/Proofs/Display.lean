import TwinForest.Proofs.Dump

/-!
# A display tells the wording

The s-expression of a parse tree has its texts between quotes, and a quoted text ends at a definite
place. So does the whole s-expression: after the opening text of a list, a parenthesis starts another
child and a quote starts the closing text. What is displayed can therefore be read back up to its
positions, which are not displayed. There is no line feed in an s-expression, so the trees of a file can
be told apart by their lines.
-/

namespace TwinForest.ParseTree

mutual

/-- The shape of a tree with the texts and kinds at its nodes, but without positions. -/
def wording : ParseTree → Tree Wording
  | list opening children closing =>
    ⟨.list opening.content closing.content, wordingAll children⟩
  | atom a => ⟨.atom a.kind a.content, .nil⟩

def wordingAll : List ParseTree → Forest Wording
  | [] => .nil
  | t :: ts => .cons t.wording.label t.wording.children (wordingAll ts)

end

theorem wordingAll_cons_inj {t u : ParseTree} {ts us : List ParseTree} :
    wordingAll (t :: ts) = wordingAll (u :: us) ↔
      t.wording = u.wording ∧ wordingAll ts = wordingAll us := by
  constructor
  · intro h
    obtain ⟨hlabel, hchildren, hmore⟩ := Forest.cons.inj h
    exact ⟨congrArg₂ Tree.mk hlabel hchildren, hmore⟩
  · rintro ⟨hfirst, hmore⟩
    rw [wordingAll, wordingAll, hfirst, hmore]

/-! ## Reading back -/

theorem displayChars_list (opening closing : Delimiter) (children : List ParseTree) :
    (list opening children closing).displayChars =
      '(' :: ("list".toList ++ ' ' :: (Text.quoteChars opening.content.toList ++
        (displayChildren children ++ ' ' :: '"' ::
          (closing.content.toList.flatMap Text.escape ++ ['"', ')'])))) := by
  have hword : "(list ".toList = '(' :: ("list".toList ++ [' ']) := by decide
  unfold displayChars
  rw [hword]
  simp only [Text.quoteChars, List.append_assoc, List.cons_append, List.nil_append]

theorem displayChars_atom (a : Atom) :
    (atom a).displayChars =
      '(' :: (a.kind.name.toList ++ ' ' :: (Text.quoteChars a.content.toList ++ [')'])) := by
  unfold displayChars
  simp only [List.append_assoc, List.cons_append]

theorem exists_displayChars_eq_cons (t : ParseTree) : ∃ cs, t.displayChars = '(' :: cs := by
  cases t with
  | list opening children closing => exact ⟨_, displayChars_list opening closing children⟩
  | atom a => exact ⟨_, displayChars_atom a⟩

/-- The word of a list is not that of an atom. -/
theorem list_ne_name (kind : AtomKind) : "list".toList ≠ kind.name.toList := by
  cases kind <;> decide

theorem space_notMem_list : ' ' ∉ "list".toList := by decide

mutual

/-- An s-expression can be cut off the text that it starts, and tells the wording of its tree. -/
theorem displayChars_append_inj (t u : ParseTree) {rs ss : List Char}
    (h : t.displayChars ++ rs = u.displayChars ++ ss) : t.wording = u.wording ∧ rs = ss := by
  cases t with
  | atom a =>
    cases u with
    | atom a' =>
      simp only [displayChars_atom, List.cons_append, List.append_assoc, List.nil_append,
        List.cons.injEq, true_and] at h
      obtain ⟨hname, hcontent⟩ :=
        append_cons_inj a.kind.space_notMem_name a'.kind.space_notMem_name h
      obtain ⟨hcontent, hrest⟩ := Text.quoteChars_append_inj hcontent
      refine ⟨?_, (List.cons.inj hrest).2⟩
      rw [wording, wording, AtomKind.name_inj (String.toList_inj.mp hname),
        String.toList_inj.mp hcontent]
    | list opening children closing =>
      simp only [displayChars_atom, displayChars_list, List.cons_append, List.append_assoc,
        List.cons.injEq, true_and] at h
      obtain ⟨hname, -⟩ := append_cons_inj a.kind.space_notMem_name space_notMem_list h
      exact absurd hname.symm (list_ne_name a.kind)
  | list opening children closing =>
    cases u with
    | atom a =>
      simp only [displayChars_atom, displayChars_list, List.cons_append, List.append_assoc,
        List.cons.injEq, true_and] at h
      obtain ⟨hname, -⟩ := append_cons_inj space_notMem_list a.kind.space_notMem_name h
      exact absurd hname (list_ne_name a.kind)
    | list opening' children' closing' =>
      simp only [displayChars_list, List.cons_append, List.append_assoc, List.nil_append,
        List.cons.injEq, true_and] at h
      obtain ⟨-, hopening⟩ := append_cons_inj space_notMem_list space_notMem_list h
      obtain ⟨hopening, hchildren⟩ := Text.quoteChars_append_inj hopening
      obtain ⟨hchildren, hclosing⟩ := displayChildren_append_inj children children' hchildren
      obtain ⟨hclosing, hrest⟩ := Text.flatMap_escape_append_inj hclosing
      refine ⟨?_, (List.cons.inj hrest).2⟩
      rw [wording, wording, String.toList_inj.mp hopening, hchildren, String.toList_inj.mp hclosing]

/-- The children of a list end where a quote comes in the place of a parenthesis. -/
theorem displayChildren_append_inj (ts us : List ParseTree) {rs ss : List Char}
    (h : displayChildren ts ++ ' ' :: '"' :: rs = displayChildren us ++ ' ' :: '"' :: ss) :
    wordingAll ts = wordingAll us ∧ rs = ss := by
  cases ts with
  | nil =>
    cases us with
    | nil => simpa [displayChildren] using h
    | cons u us =>
      obtain ⟨cs, hu⟩ := exists_displayChars_eq_cons u
      simp [displayChildren, hu] at h
  | cons t ts =>
    cases us with
    | nil =>
      obtain ⟨cs, ht⟩ := exists_displayChars_eq_cons t
      simp [displayChildren, ht] at h
    | cons u us =>
      simp only [displayChildren, List.cons_append, List.append_assoc, List.cons.injEq,
        true_and] at h
      obtain ⟨hfirst, hmore⟩ := displayChars_append_inj t u h
      obtain ⟨hmore, hrest⟩ := displayChildren_append_inj ts us hmore
      exact ⟨wordingAll_cons_inj.mpr ⟨hfirst, hmore⟩, hrest⟩

end

/-! ## Positions are not displayed -/

mutual

theorem displayChars_eq_of_wording_eq (t u : ParseTree) (h : t.wording = u.wording) :
    t.displayChars = u.displayChars := by
  cases t with
  | atom a =>
    cases u with
    | atom a' =>
      simp only [wording, Tree.mk.injEq, Wording.atom.injEq, and_true] at h
      rw [displayChars_atom, displayChars_atom, h.1, h.2]
    | list => simp [wording] at h
  | list opening children closing =>
    cases u with
    | atom a => simp [wording] at h
    | list opening' children' closing' =>
      simp only [wording, Tree.mk.injEq, Wording.list.injEq] at h
      obtain ⟨⟨hopening, hclosing⟩, hchildren⟩ := h
      rw [displayChars_list, displayChars_list, hopening, hclosing,
        displayChildren_eq_of_wordingAll_eq children children' hchildren]

theorem displayChildren_eq_of_wordingAll_eq (ts us : List ParseTree)
    (h : wordingAll ts = wordingAll us) : displayChildren ts = displayChildren us := by
  cases ts with
  | nil =>
    cases us with
    | nil => rfl
    | cons => cases h
  | cons t ts =>
    cases us with
    | nil => cases h
    | cons u us =>
      obtain ⟨hfirst, hmore⟩ := wordingAll_cons_inj.mp h
      rw [displayChildren, displayChildren, displayChars_eq_of_wording_eq t u hfirst,
        displayChildren_eq_of_wordingAll_eq ts us hmore]

end

/-- S-expressions are equal exactly when the wording is. -/
theorem displayChars_eq_iff {t u : ParseTree} :
    t.displayChars = u.displayChars ↔ t.wording = u.wording := by
  constructor
  · intro h
    exact (displayChars_append_inj t u (congrArg (· ++ []) h)).1
  · exact displayChars_eq_of_wording_eq t u

theorem map_displayChars_eq_iff {ts us : List ParseTree} :
    ts.map displayChars = us.map displayChars ↔ wordingAll ts = wordingAll us := by
  induction ts generalizing us with
  | nil =>
    cases us with
    | nil => simp
    | cons => simp [wordingAll]
  | cons t ts ih =>
    cases us with
    | nil => simp [wordingAll]
    | cons u us =>
      rw [List.map_cons, List.map_cons, List.cons.injEq, displayChars_eq_iff, ih,
        wordingAll_cons_inj]

/-! ## Lines -/

mutual

theorem newline_notMem_displayChars (t : ParseTree) : '\n' ∉ t.displayChars := by
  cases t with
  | atom a =>
    simp [displayChars_atom, a.kind.newline_notMem_name, Text.newline_notMem_quoteChars]
  | list opening children closing =>
    simp [displayChars_list, Text.newline_notMem_quoteChars, Text.newline_notMem_escape,
      newline_notMem_displayChildren children]

theorem newline_notMem_displayChildren (ts : List ParseTree) : '\n' ∉ displayChildren ts := by
  cases ts with
  | nil => simp [displayChildren]
  | cons t ts =>
    simp [displayChildren, newline_notMem_displayChars t, newline_notMem_displayChildren ts]

end

theorem toList_displayAll (ts : List ParseTree) :
    (displayAll ts).toList = List.intercalate ['\n'] (ts.map displayChars) := by
  rw [displayAll, String.toList_intercalate, List.map_map]
  congr 2
  funext t
  simp [display]

/-- The lines of a display are those of its trees. -/
theorem splitOn_displayAll {ts : List ParseTree} (h : ts ≠ []) :
    (displayAll ts).toList.splitOn '\n' = ts.map displayChars := by
  rw [toList_displayAll]
  refine List.splitOn_intercalate '\n' ?_ (by simpa using h)
  intro l hl
  obtain ⟨t, -, rfl⟩ := List.mem_map.mp hl
  exact t.newline_notMem_displayChars

/-- No display of trees is the one of no trees. -/
theorem displayAll_ne_empty {ts : List ParseTree} (h : ts ≠ []) : displayAll ts ≠ displayAll [] := by
  intro heq
  have hlines := splitOn_displayAll h
  rw [heq] at hlines
  obtain ⟨t, ts, rfl, hdisplay, -⟩ := List.map_eq_cons_iff.mp hlines.symm
  obtain ⟨cs, ht⟩ := exists_displayChars_eq_cons t
  rw [ht] at hdisplay
  cases hdisplay

theorem displayAll_eq_iff {ts us : List ParseTree} :
    displayAll ts = displayAll us ↔ ts.map displayChars = us.map displayChars := by
  constructor
  · intro h
    by_cases hts : ts = []
    · by_cases hus : us = []
      · rw [hts, hus]
      · exact absurd (hts ▸ h).symm (displayAll_ne_empty hus)
    · by_cases hus : us = []
      · exact absurd (hus ▸ h) (displayAll_ne_empty hts)
      · rw [← splitOn_displayAll hts, ← splitOn_displayAll hus, h]
  · intro h
    rw [← String.toList_inj, toList_displayAll, toList_displayAll, h]

/-- Files have the same display exactly when their trees have the same wording, one by one. Each tree
is displayed on one line. -/
theorem displayAll_eq_iff_wordingAll_eq (ts us : List ParseTree) :
    (displayAll ts = displayAll us ↔ wordingAll ts = wordingAll us) ∧
      (ts ≠ [] → (displayAll ts).toList.splitOn '\n' = ts.map fun t => t.display.toList) := by
  refine ⟨displayAll_eq_iff.trans map_displayChars_eq_iff, fun h => ?_⟩
  simpa [display] using splitOn_displayAll h

/-- An atom with a text that looks like two atoms, and texts over two lines at other positions. -/
theorem displayAll_of_lookalikes :
    displayAll [.list ⟨[], "("⟩ [.atom ⟨[], "x\") (normal \"y", .normal⟩] ⟨[], ")"⟩] ≠
      displayAll [.list ⟨[], "("⟩ [.atom ⟨[], "x", .normal⟩, .atom ⟨[], "y", .normal⟩] ⟨[], ")"⟩] ∧
    displayAll [.atom ⟨[⟨0, 0, 1⟩, ⟨1, 0, 1⟩], "a\nb", .comment⟩, .list ⟨[], "\n"⟩ [] ⟨[], ""⟩] =
      displayAll [.atom ⟨[], "a\nb", .comment⟩, .list ⟨[⟨2, 0, 0⟩], "\n"⟩ [] ⟨[], ""⟩] ∧
    ((displayAll [.atom ⟨[], "a\nb", .comment⟩, .list ⟨[], "\n"⟩ [] ⟨[], ""⟩]).toList.splitOn
      '\n').length = 2 := by
  refine ⟨fun h => ?_, ?_, ?_⟩
  · exact absurd ((displayAll_eq_iff_wordingAll_eq _ _).1.mp h) (by decide)
  · exact (displayAll_eq_iff_wordingAll_eq _ _).1.mpr rfl
  · rw [(displayAll_eq_iff_wordingAll_eq _ []).2 (by simp), List.length_map]
    rfl

end TwinForest.ParseTree
