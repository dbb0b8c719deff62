import TwinForest.Proofs.CommentLines
import TwinForest.Proofs.ContentClasses
import TwinForest.Proofs.Normalization

/-!
# Comments from files with other line ends

A file may end its lines with a carriage return and a line feed where another one has the line feed alone.
A comment that takes in such a line end is never equal to its counterpart. When the two are built, both lose
the line feed at their end and nothing else. When they are compared, every carriage return that is left
makes a line of its own. So they differ by as many line breaks as there are line feeds.
-/

namespace TwinForest

/-! ## Texts -/

namespace Text

/-- The text with a carriage return in front of every line feed. -/
def crlf (s : String) : String :=
  String.ofList (s.toList.flatMap fun c => if c = '\n' then ['\r', '\n'] else [c])

theorem toList_crlf (s : String) :
    (crlf s).toList = s.toList.flatMap fun c => if c = '\n' then ['\r', '\n'] else [c] :=
  String.toList_ofList

theorem crlf_of_notMem {s : String} (h : '\n' ∉ s.toList) : crlf s = s := by
  have hsame : ∀ c ∈ s.toList, (if c = '\n' then ['\r', '\n'] else [c]) = [c] := fun c hc =>
    if_neg fun (heq : c = '\n') => h (heq ▸ hc)
  rw [← String.toList_inj, toList_crlf, List.flatMap_congr hsame, List.flatMap_singleton']

/-- The last character stays, since a line feed keeps its place behind the carriage return. -/
theorem getLast?_crlf (s : String) : (crlf s).toList.getLast? = s.toList.getLast? := by
  rw [toList_crlf]
  rcases List.eq_nil_or_concat s.toList with h | ⟨cs, c, h⟩
  · rw [h]
    rfl
  · rw [h, List.concat_eq_append, List.flatMap_append, List.flatMap_singleton]
    split
    · rename_i hfeed
      simp [hfeed]
    · simp

end Text

namespace Atom

open Text

/-- Every line feed becomes two line breaks. -/
theorem countP_isBreak_crlf (s : String) :
    (crlf s).toList.countP isBreak = s.toList.countP isBreak + s.toList.count '\n' := by
  rw [toList_crlf]
  induction s.toList with
  | nil => rfl
  | cons c cs ih =>
    rw [List.flatMap_cons, List.countP_append, ih]
    by_cases hc : c = '\n' <;> grind [isBreak]

/-- A text loses one line break with the line feed at its end. -/
theorem countP_isBreak_dropEnd (cs : List Char) :
    (dropEnd '\n' cs).countP isBreak + (if cs.getLast? = some '\n' then 1 else 0) =
      cs.countP isBreak := by
  unfold dropEnd
  split
  · rename_i hlast
    obtain ⟨ds, rfl⟩ := List.getLast?_eq_some_iff.mp hlast
    simp [isBreak]
  · rfl

variable {c : String} (position position' : List Span)

/-- A comment without a carriage return at its end loses the line feed there, if it has one. -/
theorem exists_trim_comment (hc : c.toList.getLast? ≠ some '\r') :
    ∃ position', (comment position c).trim =
      comment position' (String.ofList (dropEnd '\n' c.toList)) := by
  rw [trim_eq_normalize]
  by_cases hfeed : c.toList.getLast? = some '\n'
  · exact ⟨position.dropLast, by simp [normalize, comment, dropEnd, hfeed]⟩
  · exact ⟨position, by simp [normalize, comment, dropEnd, hc, hfeed]⟩

/-- A comment without carriage returns is compared equal to the one with a carriage return in front of
every line feed only when there is none. -/
theorem normalizedContent_trim_crlf_iff (hc : '\r' ∉ c.toList) :
    (comment position c).trim.normalizedContent =
      (comment position' (crlf c)).trim.normalizedContent ↔ '\n' ∉ c.toList := by
  have hlast : c.toList.getLast? ≠ some '\r' := fun h => hc (List.mem_of_getLast? h)
  have hlast' : (crlf c).toList.getLast? ≠ some '\r' := by
    rw [getLast?_crlf]
    exact hlast
  obtain ⟨spans, htrim⟩ := exists_trim_comment position hlast
  obtain ⟨spans', htrim'⟩ := exists_trim_comment position' hlast'
  rw [htrim, htrim']
  constructor
  · intro h hfeed
    -- Both texts lose the same at their ends, so the line breaks tell them apart.
    have hbreaks := congrArg (fun s => s.toList.countP isBreak) h
    simp only [countP_isBreak_normalizedContent, String.toList_ofList] at hbreaks
    have hfewer := countP_isBreak_dropEnd c.toList
    have hfewer' := countP_isBreak_dropEnd (crlf c).toList
    rw [getLast?_crlf, countP_isBreak_crlf] at hfewer'
    have hpos : 0 < c.toList.count '\n' := List.count_pos_iff.mpr hfeed
    omega
  · intro h
    rw [crlf_of_notMem h]
    rfl

end Atom

/-! ## Atoms that were built -/

namespace Builder

variable {b : Builder} {made : List (Key × Atom)} {a : Atom} {k : Key}

/-- Calls for atoms and lists lead to the builder, whether they fail or not. The atoms that they built are
the given ones, at the given keys. -/
inductive Made : Builder → List (Key × Atom) → Prop where
  | empty : Made empty []
  | atom {b : Builder} {made : List (Key × Atom)} (a : Atom) :
      Made b made → Made (b.atom a).2 (made ++ [((b.atom a).1, a)])
  | list {b : Builder} {made : List (Key × Atom)} (opening closing : Delimiter) (children : List Key) :
      Made b made → Made (b.list opening closing children).2 made

theorem Made.reachable (h : b.Made made) : b.Reachable := by
  induction h with
  | empty => exact .empty
  | atom a _ ih => exact .atom a ih
  | list opening closing children _ ih => exact .list opening closing children ih

/-- Every builder comes from such calls, also when parse trees were built. -/
theorem Reachable.exists_made (hb : b.Reachable) : ∃ made, b.Made made := by
  have hinvariant : Invariant fun b => ∃ made, b.Made made := {
    empty := ⟨[], .empty⟩
    atom := fun a ⟨_, h⟩ => ⟨_, h.atom a⟩
    list := fun opening closing children ⟨_, h⟩ => ⟨_, h.list opening closing children⟩ }
  exact hinvariant.holds hb

/-- A call for a list leaves all nodes as they are. -/
theorem get?_nodes_list {t : Tree Node} (hk : b.nodes.get? k = some t) (opening closing : Delimiter)
    (keys : List Key) : (b.list opening closing keys).2.nodes.get? k = some t := by
  rcases list_state_cases b opening closing keys with h | ⟨ts, -, h | ⟨-, -, h⟩⟩
  · rw [h, hk]
  · rw [h, hk]
  · rw [h]
    exact (Store.get?_alloc_of_lt _ (Store.lt_size_of_get? hk)).trans hk

/-- An atom that was built is at its key, trimmed. -/
theorem Made.get?_nodes (h : b.Made made) (hk : (k, a) ∈ made) :
    b.nodes.get? k = some ⟨⟨k, .atom a.trim⟩, .nil⟩ := by
  induction h with
  | empty => simp at hk
  | atom a' h ih =>
    have hbuilt := Built.atom h.reachable.sound a'
    rcases List.mem_append.mp hk with hk | hk
    · have hold := ih hk
      rw [hbuilt.grows.get?_nodes (Store.lt_size_of_get? hold), hold]
    · cases List.mem_singleton.mp hk
      exact hbuilt.stores _ List.mem_cons_self
  | list opening closing children _ ih => exact get?_nodes_list (ih hk) opening closing children

end Builder

/-! ## Classes -/

namespace Pair

variable {p : Pair} {b : Builder} {made : List (Key × Atom)} {c : String}

/-- A comment without carriage returns and the one with a carriage return in front of each of its line feeds
may be built in any order, with any spans, and be reached on either side. They are of one class, and have
equal content, exactly when there is no line feed. -/
theorem contentId_crlf_eq_iff (hb : b.Made made) (hc : '\r' ∉ c.toList)
    {position position' : List Span} {k l : Key} (hk : (k, .comment position c) ∈ made)
    (hl : (l, .comment position' (Text.crlf c)) ∈ made) {roots roots' : List Key}
    (hp : b.nodes.index roots roots' = .ok p) (hkr : b.nodes.Reaches (roots ++ roots') k)
    (hlr : b.nodes.Reaches (roots ++ roots') l) :
    ∃ s t, p.node k = .ok s ∧ p.node l = .ok t ∧
      (s.label.contentId = t.label.contentId ↔ '\n' ∉ c.toList) ∧
      (b.nodes.SameContent k l ↔ '\n' ∉ c.toList) := by
  have hn := hb.reachable.sound.coherent
  obtain ⟨lhs, rhs, rfl, rfl, h⟩ := hn.indexes hp
  obtain ⟨s, hs, hks, hgets⟩ := h.node_of_reaches hn hkr
  obtain ⟨t, ht, hlt, hgett⟩ := h.node_of_reaches hn hlr
  have hbuilts := Option.some.inj (hgets.symm.trans (hb.get?_nodes hk))
  have hbuiltt := Option.some.inj (hgett.symm.trans (hb.get?_nodes hl))
  have hsame : s.built.SameContent t.built ↔ '\n' ∉ c.toList := by
    rw [hbuilts, hbuiltt]
    exact Atom.normalizedContent_trim_crlf_iff position position' hc
  refine ⟨s, t, hks, hlt, (h.contentId_eq_iff hs ht).trans hsame, ?_⟩
  simpa [Nodes.SameContent, hgets, hgett] using hsame

/-- A line feed at the end is enough. It goes when the comment is built, within a list on the left and as a
root on the right, but the carriage return in front of it stays. -/
theorem contentId_crlf_ne_at_end :
    ∃ p s t,
      ((Builder.empty.buildAll
          [.list ⟨[], "["⟩ [.atom (.comment [⟨1, 2, 5⟩, ⟨2, 0, 0⟩] "# a\n")] ⟨[], "]"⟩]).2.buildAll
        [.atom (.comment [⟨0, 0, 4⟩] "# a\r\n")]).2.nodes.index [1] [2] = .ok p ∧
      p.node 0 = .ok s ∧ p.node 2 = .ok t ∧ s.label.contentId ≠ t.label.contentId := by
  obtain ⟨-, p, hp⟩ := Builder.exists_index_of_buildAll
    [.list ⟨[], "["⟩ [.atom (.comment [⟨1, 2, 5⟩, ⟨2, 0, 0⟩] "# a\n")] ⟨[], "]"⟩]
    [.atom (.comment [⟨0, 0, 4⟩] "# a\r\n")] [1] [2] rfl rfl
  have hmade := ((Builder.Made.empty.atom (.comment [⟨1, 2, 5⟩, ⟨2, 0, 0⟩] "# a\n")).list
    ⟨[], "["⟩ ⟨[], "]"⟩ [0]).atom (.comment [⟨0, 0, 4⟩] "# a\r\n")
  obtain ⟨s, t, hs, ht, hiff, -⟩ :=
    contentId_crlf_eq_iff hmade (c := "# a\n") (by decide) (k := 0) (l := 2) List.mem_cons_self
      (List.mem_cons_of_mem _ List.mem_cons_self) hp
      (.child (.root (by simp : 1 ∈ [1] ++ [2])) rfl (by decide)) (.root (by simp))
  exact ⟨p, s, t, hp, hs, ht, fun heq => hiff.mp heq (by decide)⟩

end Pair

end TwinForest
