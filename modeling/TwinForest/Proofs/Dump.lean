import TwinForest.Proofs.Quoting
import TwinForest.Proofs.Wording

/-!
# A dump tells the wording

A dump has one line for each side and one for each node. A line can be taken apart into its
indentation, which is the depth of the node, and its texts. The depths along the pre-order tell the
shape of a forest, so the dump of a pair tells the wording of both sides. It tells no more than that,
since everything else on its lines follows from the wording.
-/

namespace TwinForest

/-! ## Outlines -/

namespace Forest

variable {α : Type u} {β : Type v}

/-- The labels in pre-order, each with its depth; the roots have the given depth. -/
def outline (depth : Nat) : Forest α → List (Nat × α)
  | nil => []
  | cons a children rest => (depth, a) :: (outline (depth + 1) children ++ outline depth rest)

theorem head?_outline_append {f : Forest α} {depth : Nat} {rs : List (Nat × α)}
    (hr : ∀ x ∈ rs.head?, x.1 < depth) : ∀ x ∈ (outline depth f ++ rs).head?, x.1 < depth + 1 := by
  intro x hx
  cases f with
  | nil => exact Nat.lt_succ_of_lt (hr x hx)
  | cons a children rest =>
    obtain rfl : (depth, a) = x := by simpa [outline] using hx
    exact Nat.lt_succ_self depth

/-- A forest ends where an entry of less depth comes, so it can be read back from an outline. -/
theorem outline_append_inj {f g : Forest α} {depth : Nat} {rs ss : List (Nat × α)}
    (hr : ∀ x ∈ rs.head?, x.1 < depth) (hs : ∀ x ∈ ss.head?, x.1 < depth)
    (h : outline depth f ++ rs = outline depth g ++ ss) : f = g ∧ rs = ss := by
  induction f generalizing g depth rs ss with
  | nil =>
    cases g with
    | nil => exact ⟨rfl, h⟩
    | cons b children rest =>
      change rs = (depth, b) :: _ at h
      subst h
      exact absurd (hr (depth, b) rfl) (Nat.lt_irrefl depth)
  | cons a children rest ihc ihr =>
    cases g with
    | nil =>
      change (depth, a) :: _ = ss at h
      subst h
      exact absurd (hs (depth, a) rfl) (Nat.lt_irrefl depth)
    | cons b children' rest' =>
      simp only [outline, List.cons_append, List.append_assoc, List.cons.injEq, Prod.mk.injEq,
        true_and] at h
      obtain ⟨rfl, hbelow⟩ := h
      obtain ⟨rfl, hbeside⟩ := ihc (head?_outline_append hr) (head?_outline_append hs) hbelow
      obtain ⟨rfl, rfl⟩ := ihr hr hs hbeside
      exact ⟨rfl, rfl⟩

theorem outline_inj (depth : Nat) {f g : Forest α} (h : outline depth f = outline depth g) :
    f = g := by
  have hnone : ∀ x ∈ ([] : List (Nat × α)).head?, x.1 < depth := by simp
  exact (outline_append_inj hnone hnone (congrArg (· ++ []) h)).1

end Forest

/-- The outline of a forest along the pre-order of its numbered nodes. -/
theorem Placed.outline_number (parent : Option Key) (ancestors waiting : Nat) (next : NodeId)
    (f : Forest Node) :
    (number parent ancestors waiting next f).1.preorder.map
        (fun n => (n.ancestors, n.node.form.wording)) = f.wording.outline ancestors := by
  induction f generalizing parent ancestors waiting next with
  | nil => rfl
  | cons n children rest ihc ihr =>
    simp only [number, Forest.preorder, List.map_cons, List.map_append, ihc, ihr]
    rfl

/-! ## Lines -/

theorem toList_pushn (s : String) (c : Char) (n : Nat) :
    (s.pushn c n).toList = s.toList ++ List.replicate n c := by
  rw [String.pushn_eq_repeat_push]
  induction n with
  | zero => simp [Nat.repeat]
  | succ n ih => simp [Nat.repeat, ih, List.replicate_succ']

/-- Lines that have no line feed can be read back from the text that they make. -/
theorem lines_inj {ls ms : List (List Char)} (hl : ∀ l ∈ ls, '\n' ∉ l) (hm : ∀ m ∈ ms, '\n' ∉ m)
    (h : ls.flatMap (· ++ ['\n']) = ms.flatMap (· ++ ['\n'])) : ls = ms := by
  induction ls generalizing ms with
  | nil =>
    cases ms with
    | nil => rfl
    | cons m ms => simp at h
  | cons l ls ih =>
    cases ms with
    | nil => simp at h
    | cons m ms =>
      rw [List.forall_mem_cons] at hl hm
      simp only [List.flatMap_cons, List.append_assoc, List.singleton_append] at h
      obtain ⟨rfl, htail⟩ := append_cons_inj hl.1 hm.1 h
      rw [ih hl.2 hm.2 htail]

theorem indent_inj {m n : Nat} {c d : Char} {cs ds : List Char} (hc : c ≠ ' ') (hd : d ≠ ' ')
    (h : List.replicate m ' ' ++ c :: cs = List.replicate n ' ' ++ d :: ds) :
    m = n ∧ c :: cs = d :: ds := by
  induction m generalizing n with
  | zero =>
    cases n with
    | zero => exact ⟨rfl, h⟩
    | succ n => exact absurd (List.cons.inj h).1 hc
  | succ m ih =>
    cases n with
    | zero => exact absurd (List.cons.inj h).1.symm hd
    | succ n =>
      obtain ⟨rfl, htail⟩ := ih (List.cons.inj h).2
      exact ⟨rfl, htail⟩

namespace AtomKind

theorem space_notMem_name (kind : AtomKind) : ' ' ∉ kind.name.toList := by
  cases kind <;> decide

theorem newline_notMem_name (kind : AtomKind) : '\n' ∉ kind.name.toList := by
  cases kind <;> decide

theorem name_inj {kind kind' : AtomKind} (h : kind.name = kind'.name) : kind = kind' := by
  cases kind <;> cases kind' <;> simp_all [name]

theorem quote_ne_name_append (kind : AtomKind) (rs ss : List Char) :
    '"' :: rs ≠ kind.name.toList ++ ss := by
  cases kind <;> simp [name]

end AtomKind

namespace Wording

def tag : Wording → List Char
  | list _ _ => ['l', 'i', 's', 't']
  | atom _ _ => ['a', 't', 'o', 'm']

def chars : Wording → List Char
  | list opening closing =>
    Text.quoteChars opening.toList ++ ' ' :: Text.quoteChars closing.toList
  | atom kind content => kind.name.toList ++ ' ' :: Text.quoteChars content.toList

/-- The texts of a node can be cut off the rest of its line and read back. -/
theorem chars_append_inj {v w : Wording} {rs ss : List Char} (h : v.chars ++ rs = w.chars ++ ss) :
    v = w := by
  cases v with
  | list opening closing =>
    cases w with
    | list opening' closing' =>
      simp only [chars, List.append_assoc, List.cons_append] at h
      obtain ⟨hopening, hrest⟩ := Text.quoteChars_append_inj h
      obtain ⟨hclosing, -⟩ := Text.quoteChars_append_inj (List.cons.inj hrest).2
      rw [String.toList_inj.mp hopening, String.toList_inj.mp hclosing]
    | atom kind content =>
      simp only [chars, List.append_assoc] at h
      exact absurd h (kind.quote_ne_name_append _ _)
  | atom kind content =>
    cases w with
    | list opening closing =>
      simp only [chars, List.append_assoc] at h
      exact absurd h.symm (kind.quote_ne_name_append _ _)
    | atom kind' content' =>
      simp only [chars, List.append_assoc, List.cons_append] at h
      obtain ⟨hname, hrest⟩ :=
        append_cons_inj kind.space_notMem_name kind'.space_notMem_name h
      obtain ⟨hcontent, -⟩ := Text.quoteChars_append_inj hrest
      rw [AtomKind.name_inj (String.toList_inj.mp hname), String.toList_inj.mp hcontent]

theorem newline_notMem_chars (w : Wording) : '\n' ∉ w.chars := by
  cases w with
  | list opening closing => simp [chars, Text.newline_notMem_quoteChars]
  | atom kind content =>
    simp [chars, Text.newline_notMem_quoteChars, kind.newline_notMem_name]

end Wording

namespace Linked

theorem newline_notMem_decimal (n : Nat) : '\n' ∉ Nat.toDigits 10 n :=
  notMem_toDigits (by decide) (by decide)

/-- What is shown of a node: tag, number, content class and texts, and then a count and a mark. -/
theorem toList_display (n : Linked) :
    ∃ rest, '\n' ∉ rest ∧ n.display.toList = n.node.form.wording.tag ++ '@' ::
      (Nat.toDigits 10 n.id ++ ' ' :: '#' ::
        (Nat.toDigits 10 n.contentId ++ ' ' :: (n.node.form.wording.chars ++ rest))) := by
  have hmark : '\n' ∉ (if n.unique then "unique" else "shared").toList := by
    cases n.unique <;> decide
  cases hform : n.node.form with
  | list opening closing descendants =>
    refine ⟨" descendants=".toList ++ (Nat.toDigits 10 descendants ++ ' ' ::
      (if n.unique then "unique" else "shared").toList), ?_, ?_⟩
    · simp [newline_notMem_decimal, hmark]
    · simp [display, hform, Text.quote, toString, Form.wording, Wording.tag, Wording.chars]
  | atom a =>
    refine ⟨' ' :: (if n.unique then "unique" else "shared").toList, ?_, ?_⟩
    · simp [hmark]
    · simp [display, hform, Text.quote, toString, Form.wording, Wording.tag, Wording.chars]

/-- The line of a node, without the line feed at its end. -/
def line (n : Linked) : List Char :=
  List.replicate (2 * (n.ancestors + 1)) ' ' ++ n.display.toList

theorem toList_dumpLine (n : Linked) : (Pair.dumpLine n).toList = n.line ++ ['\n'] := by
  simp [Pair.dumpLine, line, toList_pushn]

theorem newline_notMem_line (n : Linked) : '\n' ∉ n.line := by
  obtain ⟨rest, hrest, hdisplay⟩ := n.toList_display
  have htag : '\n' ∉ n.node.form.wording.tag := by
    cases n.node.form.wording <;> simp [Wording.tag]
  simp [line, hdisplay, htag, newline_notMem_decimal, Wording.newline_notMem_chars, hrest]

/-- A line tells depth and texts of its node. -/
theorem line_inj {n m : Linked} (h : n.line = m.line) :
    (n.ancestors, n.node.form.wording) = (m.ancestors, m.node.form.wording) := by
  obtain ⟨rest, -, hn⟩ := n.toList_display
  obtain ⟨rest', -, hm⟩ := m.toList_display
  have hstart : ∀ w : Wording, ∃ c cs, w.tag = c :: cs ∧ c ≠ ' ' ∧ '@' ∉ c :: cs := by
    intro w
    cases w with
    | list => exact ⟨'l', ['i', 's', 't'], rfl, by decide, by decide⟩
    | atom => exact ⟨'a', ['t', 'o', 'm'], rfl, by decide, by decide⟩
  obtain ⟨c, cs, htag, hc, hat⟩ := hstart n.node.form.wording
  obtain ⟨d, ds, htag', hd, hat'⟩ := hstart m.node.form.wording
  rw [line, line, hn, hm, htag, htag', List.cons_append, List.cons_append] at h
  obtain ⟨hindent, htext⟩ := indent_inj hc hd h
  obtain ⟨-, hid⟩ := append_cons_inj hat hat' htext
  obtain ⟨-, hclass⟩ := decimal_append_inj (by decide) hid
  obtain ⟨-, hchars⟩ := decimal_append_inj (by decide) (List.cons.inj hclass).2
  have hdepth : n.ancestors = m.ancestors := by omega
  rw [hdepth, Wording.chars_append_inj hchars]

/-- Nothing else is on a line than what two runs agree on. -/
theorem line_eq_of_agrees {n m : Linked} (h : n.toMarked.Agrees m.toMarked) : n.line = m.line := by
  obtain ⟨⟨⟨hform, hid, hancestors⟩, hclass⟩, hunique⟩ := h
  obtain ⟨hwording, hweight⟩ := hform
  have hdisplay : n.display = m.display := by
    unfold display
    cases hn : n.node.form <;> cases hm : m.node.form <;>
      simp_all [Form.wording, Form.weight]
  rw [line, line, hancestors, hdisplay]

end Linked

/-! ## Dumps -/

namespace Pair

variable {nodes nodes' : Nodes} {p q : Pair} {lhs rhs lhs' rhs' : List (Tree Node)}

def sideLines (p : Pair) (side : Side) : List (List Char) :=
  side.name.toList :: (p.walk side).map fun t => t.label.line

def lines (p : Pair) : List (List Char) :=
  p.sideLines .lhs ++ p.sideLines .rhs

theorem toList_dumpSide (p : Pair) (side : Side) :
    (p.dumpSide side).toList = (p.sideLines side).flatMap (· ++ ['\n']) := by
  simp [dumpSide, sideLines, String.toList_join, List.flatMap_map, Linked.toList_dumpLine]

theorem toList_dump (p : Pair) : p.dump.toList = p.lines.flatMap (· ++ ['\n']) := by
  rw [dump, String.toList_append, toList_dumpSide, toList_dumpSide, lines, List.flatMap_append]

theorem newline_notMem_lines (p : Pair) : ∀ l ∈ p.lines, '\n' ∉ l := by
  have hside : ∀ side, ∀ l ∈ p.sideLines side, '\n' ∉ l := by
    intro side l hl
    rcases List.mem_cons.mp hl with rfl | hl
    · cases side <;> decide
    · obtain ⟨t, -, rfl⟩ := List.mem_map.mp hl
      exact t.label.newline_notMem_line
  intro l hl
  exact (List.mem_append.mp hl).elim (hside .lhs l) (hside .rhs l)

theorem Indexes.length_lines (h : p.Indexes nodes lhs rhs) : p.lines.length = p.size + 2 := by
  have hleft : (p.walk .lhs).length = p.lhs.size := p.length_walk .lhs
  have hright : (p.walk .rhs).length = p.rhs.size := p.length_walk .rhs
  have hsize := h.size_eq_add
  simp only [lines, sideLines, List.length_append, List.length_cons, List.length_map]
  omega

/-- The name of the right side is on no line before it, so the sides can be told apart. -/
theorem name_notMem_sideLines (p : Pair) : Side.rhs.name.toList ∉ p.sideLines .lhs := by
  intro h
  rcases List.mem_cons.mp h with h | h
  · exact absurd h (by decide)
  · obtain ⟨t, -, ht⟩ := List.mem_map.mp h
    have hhead : t.label.line.head? = some ' ' := by
      simp [Linked.line, Nat.mul_add, List.replicate_succ]
    rw [ht] at hhead
    exact absurd hhead (by decide)

theorem dump_eq_iff : p.dump = q.dump ↔
    ∀ side, (p.walk side).map (fun t => t.label.line) = (q.walk side).map fun t => t.label.line := by
  constructor
  · intro h
    have htext := congrArg String.toList h
    rw [toList_dump, toList_dump] at htext
    have hlines := lines_inj p.newline_notMem_lines q.newline_notMem_lines htext
    obtain ⟨hleft, hright⟩ :=
      append_cons_inj p.name_notMem_sideLines q.name_notMem_sideLines hlines
    intro side
    cases side with
    | lhs => exact (List.cons.inj hleft).2
    | rhs => exact hright
  · intro h
    apply String.toList_inj.mp
    rw [toList_dump, toList_dump, lines, lines, sideLines, sideLines, sideLines, sideLines, h, h]

theorem Indexes.outline_walk (h : p.Indexes nodes lhs rhs) (side : Side) :
    (p.walk side).map (fun t => (t.label.ancestors, t.label.node.form.wording)) =
      (p.forest side).built.wording.outline 0 := by
  obtain ⟨next, hplaced⟩ := h.placed side
  rw [← Placed.outline_number none 0 (p.forest side).built.width next]
  change _ = (Placed.numberSide next (p.forest side).built).1.preorder.map _
  rw [← hplaced, Forest.preorder_map, Forest.preorder_eq_map_subtrees, walk,
    Forest.walk_eq_subtrees, List.map_map, List.map_map]
  rfl

/-- Every subtree of an indexed forest has as many nodes as its root says. -/
theorem Indexes.weighed (h : p.Indexes nodes lhs rhs) (hn : nodes.Coherent) (hw : nodes.Weighed)
    (side : Side) : ∀ t ∈ (Forest.ofTrees (side.pick lhs rhs)).subtrees, t.Weighed := by
  intro t ht
  have hstores := hn.stores_subtree (f := .ofTrees (side.pick lhs rhs))
    (by simpa using h.stores_side side)
  exact hw _ t (hstores t ht)

/-- Dumps are equal exactly when both sides have the same wording. -/
theorem Indexes.dump_eq_iff (h : p.Indexes nodes lhs rhs) (hn : nodes.Coherent) (hw : nodes.Weighed)
    (h' : q.Indexes nodes' lhs' rhs') (hn' : nodes'.Coherent) (hw' : nodes'.Weighed) :
    p.dump = q.dump ↔ (Forest.ofTrees lhs).wording = (Forest.ofTrees lhs').wording ∧
      (Forest.ofTrees rhs).wording = (Forest.ofTrees rhs').wording := by
  rw [Pair.dump_eq_iff]
  constructor
  · intro hlines
    have hsides : ∀ side, (p.forest side).built.wording = (q.forest side).built.wording := by
      intro side
      refine Forest.outline_inj 0 ?_
      rw [← h.outline_walk, ← h'.outline_walk]
      have hline := hlines side
      rw [← List.forall₂_eq_eq_eq, List.forall₂_map_left_iff, List.forall₂_map_right_iff] at hline ⊢
      exact hline.imp fun _ _ => Linked.line_inj
    rw [← h.built_lhs, ← h'.built_lhs, ← h.built_rhs, ← h'.built_rhs]
    exact ⟨hsides .lhs, hsides .rhs⟩
  · rintro ⟨hl, hr⟩ side
    have hagrees := h.agrees h'
      (Forest.agrees_of_wording_eq hl (h.weighed hn hw .lhs) (h'.weighed hn' hw' .lhs))
      (Forest.agrees_of_wording_eq hr (h.weighed hn hw .rhs) (h'.weighed hn' hw' .rhs)) side
    have hmap := hagrees.map_preorder_eq (F := Linked.line) (G := Linked.line) Linked.line_eq_of_agrees
    simpa [walk, Forest.walk_eq_subtrees, Forest.preorder_eq_map_subtrees, Function.comp_def]
      using hmap

theorem wording_map_key (hstores : ∀ t ∈ lhs, nodes.Stores t) :
    nodes.wording (lhs.map Tree.key) = .ok (Forest.ofTrees lhs).wording := by
  rw [Nodes.wording, Nodes.mapM_item_map_key hstores]
  rfl

/-- Two pairs, whatever stores they were indexed from, have the same dump exactly when what lies below
their roots has the same wording, side by side. A dump has a line for each side and each node. -/
theorem dump_eq_iff_wording_eq {b c : Builder} (hb : b.Reachable) (hc : c.Reachable)
    {roots roots' others others' : List Key} (hp : b.nodes.index roots roots' = .ok p)
    (hq : c.nodes.index others others' = .ok q) :
    (∃ f f' g g', b.nodes.wording roots = .ok f ∧ b.nodes.wording roots' = .ok f' ∧
        c.nodes.wording others = .ok g ∧ c.nodes.wording others' = .ok g' ∧
        (p.dump = q.dump ↔ f = g ∧ f' = g')) ∧
      p.dump.toList = p.lines.flatMap (· ++ ['\n']) ∧ (∀ l ∈ p.lines, '\n' ∉ l) ∧
      p.lines.length = p.size + 2 := by
  have hn := hb.sound.coherent
  have hn' := hc.sound.coherent
  obtain ⟨lhs, rhs, rfl, rfl, h⟩ := hn.indexes hp
  obtain ⟨lhs', rhs', rfl, rfl, h'⟩ := hn'.indexes hq
  refine ⟨⟨_, _, _, _, wording_map_key (h.stores_side .lhs), wording_map_key (h.stores_side .rhs),
    wording_map_key (h'.stores_side .lhs), wording_map_key (h'.stores_side .rhs), ?_⟩,
    p.toList_dump, p.newline_notMem_lines, h.length_lines⟩
  exact h.dump_eq_iff hn hb.weighed h' hn' hc.weighed

/-- The same two files, once built behind another node and with other positions. -/
theorem dump_eq_of_shifted_keys :
    ∃ p q,
      ((Builder.empty.buildAll [.list ⟨[], "("⟩ [.atom ⟨[], "x\ny", .comment⟩] ⟨[], ")"⟩]).2.buildAll
        [.atom ⟨[], "z", .normal⟩]).2.nodes.index [1] [2] = .ok p ∧
      (((Builder.empty.atom ⟨[], "w", .normal⟩).2.buildAll
          [.list ⟨[⟨1, 2, 3⟩], "("⟩ [.atom ⟨[⟨4, 5, 6⟩], "x\ny\r", .comment⟩] ⟨[], ")"⟩]).2.buildAll
        [.atom ⟨[], "z", .normal⟩]).2.nodes.index [2] [3] = .ok q ∧
      p.dump = q.dump ∧ p.lines.length = p.size + 2 := by
  obtain ⟨lhs, rhs, b, b', p, hbefore, hafter, hp⟩ :=
    Builder.Reachable.empty.sound.exists_index
      [.list ⟨[], "("⟩ [.atom ⟨[], "x\ny", .comment⟩] ⟨[], ")"⟩] [.atom ⟨[], "z", .normal⟩]
  obtain ⟨lhs', rhs', c, c', q, hbefore', hafter', hq⟩ :=
    (Builder.Reachable.empty.atom ⟨[], "w", .normal⟩).sound.exists_index
      [.list ⟨[⟨1, 2, 3⟩], "("⟩ [.atom ⟨[⟨4, 5, 6⟩], "x\ny\r", .comment⟩] ⟨[], ")"⟩]
      [.atom ⟨[], "z", .normal⟩]
  obtain rfl : [1] = lhs := Except.ok.inj (congrArg Prod.fst hbefore)
  obtain rfl := congrArg Prod.snd hbefore
  obtain rfl : [2] = rhs := Except.ok.inj (congrArg Prod.fst hafter)
  obtain rfl := congrArg Prod.snd hafter
  obtain rfl : [2] = lhs' := Except.ok.inj (congrArg Prod.fst hbefore')
  obtain rfl := congrArg Prod.snd hbefore'
  obtain rfl : [3] = rhs' := Except.ok.inj (congrArg Prod.fst hafter')
  obtain rfl := congrArg Prod.snd hafter'
  obtain ⟨⟨f, f', g, g', hf, hf', hg, hg', hiff⟩, -, -, hlength⟩ :=
    dump_eq_iff_wording_eq (.buildAll _ (.buildAll _ .empty))
      (.buildAll _ (.buildAll _ (.atom _ .empty))) hp hq
  refine ⟨p, q, hp, hq, hiff.mpr ⟨?_, ?_⟩, hlength⟩
  · exact Except.ok.inj (hf.symm.trans hg)
  · exact Except.ok.inj (hf'.symm.trans hg')

end Pair

end TwinForest
