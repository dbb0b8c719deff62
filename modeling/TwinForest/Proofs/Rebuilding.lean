import TwinForest.Proofs.Lexemes

/-!
# Building again

What a builder has stored can be read back and built again. Lists that were built have dropped and
collapsed all that they can, so another pass changes nothing about them by itself. Only an atom may still
have a line terminator, since it loses no more than one in a pass. Then the second pass shortens the text,
and what is left may be dropped or collapse in its turn. The number of characters tells that this is never
the same again.
-/

namespace TwinForest

/-! ## Atoms -/

/-- The atom has no carriage return at its end and, if it is a comment, no line feed. -/
def Atom.Tidy (a : Atom) : Prop :=
  a.content.toList.getLast? ≠ some '\r' ∧
    (a.kind = .comment → a.content.toList.getLast? ≠ some '\n')

/-- Building an atom takes a character away, unless it is tidy. -/
theorem Atom.normalize_cases (a : Atom) :
    (a.Tidy ∧ a.normalize = a) ∨
      (¬a.Tidy ∧ a.normalize.content.toList.length < a.content.toList.length) := by
  have hshort : ∀ {cs : List Char} {c : Char}, cs.getLast? = some c → cs.dropLast.length < cs.length := by
    intro cs c hlast
    have hpos := List.length_pos_of_mem (List.mem_of_getLast? hlast)
    rw [List.length_dropLast]
    omega
  unfold normalize dropEnd
  by_cases hreturn : a.content.toList.getLast? = some '\r'
  · refine .inr ⟨fun h => h.1 hreturn, ?_⟩
    simp only [if_pos hreturn]
    split
    · rename_i hfeed
      simpa using (hshort hfeed.2).trans (hshort hreturn)
    · simpa using hshort hreturn
  · simp only [if_neg hreturn]
    split
    · rename_i hfeed
      exact .inr ⟨fun h => h.2 hfeed.1 hfeed.2, by simpa using hshort hfeed.2⟩
    · rename_i hfeed
      exact .inl ⟨⟨hreturn, fun hkind hlast => hfeed ⟨hkind, hlast⟩⟩, by simp⟩

namespace Lexeme

def textLength (ls : List Lexeme) : Nat :=
  (ls.flatMap fun l => l.text.toList).length

theorem textLength_cons (l : Lexeme) (ls : List Lexeme) :
    textLength (l :: ls) = l.text.toList.length + textLength ls := by
  simp [textLength]

/-- Lexemes without text have no characters. -/
theorem textLength_visible (ls : List Lexeme) : textLength (visible ls) = textLength ls := by
  induction ls with
  | nil => rfl
  | cons l ls ih =>
    rw [visible, List.filter_cons]
    split
    · rw [textLength_cons, textLength_cons, ← ih]
      rfl
    · rename_i hempty
      have htext : l.text = "" := by simpa using hempty
      rw [textLength_cons, htext, ← ih]
      simp [visible]

/-- A lexeme that is trimmed has fewer characters, unless it is no atom or a tidy one. -/
theorem length_text_trim (l : Lexeme) :
    l.trim.text.toList.length ≤ l.text.toList.length ∧
      (l.trim.text.toList.length = l.text.toList.length → ∀ a, l = atom a → a.Tidy) := by
  cases l with
  | delimiter d => exact ⟨le_rfl, fun _ a ha => by cases ha⟩
  | atom a =>
    change a.normalize.content.toList.length ≤ a.content.toList.length ∧
      (a.normalize.content.toList.length = a.content.toList.length → _)
    rcases a.normalize_cases with ⟨htidy, hsame⟩ | ⟨-, hlt⟩
    · rw [hsame]
      refine ⟨le_rfl, fun _ a' ha => ?_⟩
      cases ha
      exact htidy
    · exact ⟨hlt.le, fun heq => absurd heq hlt.ne⟩

theorem textLength_map_trim_le (ls : List Lexeme) :
    textLength (ls.map Lexeme.trim) ≤ textLength ls := by
  induction ls with
  | nil => exact le_rfl
  | cons l ls ih =>
    rw [List.map_cons, textLength_cons, textLength_cons]
    exact Nat.add_le_add l.length_text_trim.1 ih

/-- Lexemes that keep their number of characters when they are trimmed have tidy atoms only. -/
theorem tidy_of_textLength_eq {ls : List Lexeme} (h : textLength (ls.map Lexeme.trim) = textLength ls) :
    ∀ a, atom a ∈ ls → a.Tidy := by
  induction ls with
  | nil => simp
  | cons l ls ih =>
    obtain ⟨hle, htidy⟩ := l.length_text_trim
    have hrest := textLength_map_trim_le ls
    rw [List.map_cons, textLength_cons, textLength_cons] at h
    intro a ha
    rcases List.mem_cons.mp ha with rfl | ha
    · exact htidy (by omega) a rfl
    · exact ih (by omega) a ha

end Lexeme

/-! ## Lists -/

namespace ParseTree

mutual

/-- No list of the tree has an atom without text among its children, and none without delimiters has just
one child. -/
def Settled : ParseTree → Prop
  | list opening children closing =>
    (∀ t ∈ children, t.isEmptyAtom = false) ∧
      (∀ t, children = [t] → ¬(opening.content = "" ∧ closing.content = "")) ∧ SettledAll children
  | atom _ => True

def SettledAll : List ParseTree → Prop
  | [] => True
  | t :: ts => t.Settled ∧ SettledAll ts

end

theorem settledAll_iff {ts : List ParseTree} : SettledAll ts ↔ ∀ t ∈ ts, t.Settled := by
  induction ts with
  | nil => simp [SettledAll]
  | cons t ts ih => rw [SettledAll, ih, List.forall_mem_cons]

theorem settled_collapse {ts : List ParseTree} (htext : ∀ t ∈ ts, t.isEmptyAtom = false)
    (hts : SettledAll ts) (opening closing : Delimiter) : (collapse opening closing ts).Settled := by
  unfold collapse
  split
  · rename_i t
    split
    · exact hts.1
    · rename_i hdelimiters
      exact ⟨htext, fun _ _ => hdelimiters, hts⟩
  · rename_i hseveral
    exact ⟨htext, fun t ht => absurd ht (hseveral t), hts⟩

mutual

/-- Normal forms are settled. -/
theorem settled_normalize (t : ParseTree) : t.normalize.Settled := by
  cases t with
  | atom a => trivial
  | list opening children closing =>
    have hchildren := settledAll_iff.mp (settledAll_normalizeAll children)
    rw [normalize]
    refine settled_collapse (fun t ht => ?_) (settledAll_iff.mpr fun t ht => ?_) opening closing
    · simpa using (List.mem_filter.mp ht).2
    · exact hchildren t (List.mem_filter.mp ht).1

theorem settledAll_normalizeAll (ts : List ParseTree) : SettledAll (normalizeAll ts) := by
  cases ts with
  | nil => trivial
  | cons t ts => exact ⟨settled_normalize t, settledAll_normalizeAll ts⟩

end

mutual

/-- Settled trees of tidy atoms are their own normal forms. -/
theorem normalize_eq_self (t : ParseTree) (ht : t.Settled)
    (htidy : ∀ a, .atom a ∈ t.lexemes → a.Tidy) : t.normalize = t := by
  cases t with
  | atom a =>
    rcases a.normalize_cases with ⟨-, hsame⟩ | ⟨huntidy, -⟩
    · rw [normalize, hsame]
    · exact absurd (htidy a List.mem_cons_self) huntidy
  | list opening children closing =>
    obtain ⟨htext, hseveral, hchildren⟩ := ht
    have hsame : normalizeAll children = children :=
      normalizeAll_eq_self children hchildren fun a ha => htidy a (by simp [lexemes, ha])
    have hfilter : (children.filter fun t => !t.isEmptyAtom) = children :=
      List.filter_eq_self.mpr fun t ht => by simp [htext t ht]
    rw [normalize, hsame, hfilter, collapse_of_ne hseveral]

theorem normalizeAll_eq_self (ts : List ParseTree) (hts : SettledAll ts)
    (htidy : ∀ a, .atom a ∈ lexemesAll ts → a.Tidy) : normalizeAll ts = ts := by
  cases ts with
  | nil => rfl
  | cons t ts =>
    have hfirst : t.normalize = t :=
      normalize_eq_self t hts.1 fun a ha => htidy a (by simp [lexemesAll, ha])
    have hmore : normalizeAll ts = ts :=
      normalizeAll_eq_self ts hts.2 fun a ha => htidy a (by simp [lexemesAll, ha])
    rw [normalizeAll, hfirst, hmore]

end

/-- Trees that are their own normal forms have tidy atoms only. -/
theorem tidy_of_normalizeAll_eq {ts : List ParseTree} (h : normalizeAll ts = ts) :
    ∀ a, .atom a ∈ lexemesAll ts → a.Tidy := by
  refine Lexeme.tidy_of_textLength_eq ?_
  rw [← Lexeme.textLength_visible, ← visible_lexemesAll_normalizeAll, h, Lexeme.textLength_visible]

/-! ## Building -/

/-- What a fresh builder stores for parse trees, read back. -/
def rebuilt (ts : List ParseTree) : Except Fault (List ParseTree) := do
  let (roots, b) := Builder.empty.buildAll ts
  let built ← (← roots).mapM b.nodes.item
  return built.map Tree.parseTree

theorem rebuilt_eq (ts : List ParseTree) : rebuilt ts = .ok (normalizeAll ts) := by
  obtain ⟨built, b, hbuild, hbuilt, hread⟩ :=
    Builder.Built.buildAll Builder.Reachable.empty.sound ts
  have hfound := Nodes.mapM_item_map_key hbuilt.stores
  rw [normalizeAll_eq_map, ← hread]
  simp only [rebuilt, hbuild]
  change (built.map Tree.key).mapM b.nodes.item >>= _ = _
  rw [hfound]
  rfl

/-- Whatever was built, and read back, is the same when it is built again, with all its positions, exactly
when none of its atoms has a carriage return at its end, and none of its comments a line feed. -/
theorem rebuilt_again_iff_tidy (rs : List ParseTree) :
    ∃ ts, rebuilt rs = .ok ts ∧
      (rebuilt ts = .ok ts ↔ ∀ a, .atom a ∈ lexemesAll ts → a.Tidy) := by
  refine ⟨normalizeAll rs, rebuilt_eq rs, ?_⟩
  rw [rebuilt_eq, Except.ok.injEq]
  exact ⟨tidy_of_normalizeAll_eq, normalizeAll_eq_self _ (settledAll_normalizeAll rs)⟩

/-- Of two carriage returns one is left. It goes in the next pass, and its list with it. -/
example :
    rebuilt [.list ⟨[], ""⟩ [.atom ⟨[], "\r\r", .normal⟩, .atom ⟨[], "x", .normal⟩] ⟨[], ""⟩] =
      .ok [.list ⟨[], ""⟩ [.atom ⟨[], "\r", .normal⟩, .atom ⟨[], "x", .normal⟩] ⟨[], ""⟩] ∧
    rebuilt [.list ⟨[], ""⟩ [.atom ⟨[], "\r", .normal⟩, .atom ⟨[], "x", .normal⟩] ⟨[], ""⟩] =
      .ok [.atom ⟨[], "x", .normal⟩] :=
  ⟨rfl, rfl⟩

end ParseTree

end TwinForest
