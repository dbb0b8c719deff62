import Mathlib.Order.Interval.Finset.Nat
import TwinForest.Cli.Run
import TwinForest.Proofs.NormalForest
import TwinForest.Proofs.Rows
import TwinForest.Proofs.UniqueContent

/-!
# Numbers of content classes

Content classes are numbered as they are first met, every node after its children and the left side
before the right one. A new class takes its number from the size of the table at that moment, when the
children have been entered, so no number is left out and none is given twice. A list therefore has a
greater number than its children, also where it is of a class that was met before.
-/

namespace TwinForest

/-! ## Post-order -/

namespace Forest

variable {α : Type u} {β : Type v}

@[simp] theorem postorder_append (f g : Forest α) :
    (f ++ g).postorder = f.postorder ++ g.postorder := by
  induction f with
  | nil => rfl
  | cons a children rest _ ih => simp [postorder, ih]

@[simp] theorem postorder_map (g : α → β) (f : Forest α) :
    (f.map g).postorder = f.postorder.map g := by
  induction f with
  | nil => rfl
  | cons a children rest ihc ihr => simp [map, postorder, ihc, ihr]

theorem postorder_perm_preorder (f : Forest α) : f.postorder.Perm f.preorder := by
  induction f with
  | nil => exact .nil
  | cons a children rest ihc ihr =>
    exact List.perm_middle.trans ((ihc.append ihr).cons a)

end Forest

/-! ## Counting up -/

def largest (ids : List Nat) : Nat :=
  ids.foldr Nat.max 0

/-- Every number was there before, or is one more than the largest so far. -/
def NumberedByFirst (ids : List Nat) : Prop :=
  ∀ before id after, ids = before ++ id :: after → id ∈ before ∨ id = largest before + 1

/-- After the numbers up to the first one, the given numbers are known or new, and a new one is the
next; then the numbers go up to the second one. -/
inductive CountsUp : Nat → List Nat → Nat → Prop where
  | done {n : Nat} : CountsUp n [] n
  | known {n m id : Nat} {ids : List Nat} : 1 ≤ id → id ≤ n → CountsUp n ids m →
      CountsUp n (id :: ids) m
  | new {n m : Nat} {ids : List Nat} : CountsUp (n + 1) ids m → CountsUp n ((n + 1) :: ids) m

namespace CountsUp

variable {n m l id : Nat} {ids ids' : List Nat}

theorem append (h : CountsUp n ids m) (h' : CountsUp m ids' l) : CountsUp n (ids ++ ids') l := by
  induction h with
  | done => exact h'
  | known hone hle _ ih => exact .known hone hle (ih h')
  | new _ ih => exact .new (ih h')

theorem exists_of_append (h : CountsUp n (ids ++ ids') l) :
    ∃ m, CountsUp n ids m ∧ CountsUp m ids' l := by
  induction ids generalizing n with
  | nil => exact ⟨n, .done, h⟩
  | cons id ids ih =>
    cases h with
    | known hone hle hrest =>
      obtain ⟨m, hids, hids'⟩ := ih hrest
      exact ⟨m, .known hone hle hids, hids'⟩
    | new hrest =>
      obtain ⟨m, hids, hids'⟩ := ih hrest
      exact ⟨m, .new hids, hids'⟩

/-- The numbers that are there in the end were there before or are among the given ones. -/
theorem mem_iff (h : CountsUp n ids m) (id : Nat) :
    (1 ≤ id ∧ id ≤ n) ∨ id ∈ ids ↔ 1 ≤ id ∧ id ≤ m := by
  induction h with
  | done => simp
  | known hone hle _ ih =>
    rw [← ih, List.mem_cons]
    grind
  | new _ ih =>
    rw [← ih, List.mem_cons]
    grind

theorem max_largest (h : CountsUp n ids m) : Nat.max n (largest ids) = m := by
  induction h with
  | done => exact Nat.max_zero _
  | known _ hle _ ih =>
    rw [← ih]
    simp only [largest, List.foldr_cons]
    grind
  | new _ ih =>
    rw [← ih]
    simp only [largest, List.foldr_cons]
    grind

/-- From nothing, numbers that count up are numbered by their first occurrence. -/
theorem numberedByFirst (h : CountsUp 0 ids m) : NumberedByFirst ids := by
  rintro before id after rfl
  obtain ⟨n, hbefore, hid⟩ := h.exists_of_append
  have hlargest : largest before = n := by
    rw [← hbefore.max_largest]
    exact (Nat.zero_max _).symm
  cases hid with
  | known hone hle _ =>
    rcases (hbefore.mem_iff id).mpr ⟨hone, hle⟩ with hnone | hmem
    · omega
    · exact .inl hmem
  | new _ => exact .inr (congrArg (· + 1) hlargest.symm)

end CountsUp

/-! ## The table of classes -/

def ContentKey.children : ContentKey → List ContentId
  | list _ _ children => children
  | atom _ => []

theorem ContentKey.mem_of_mem_children {ids : List ContentId} {form : Form} {c : ContentId}
    (h : c ∈ (ContentKey.of ids form).children) : c ∈ ids := by
  cases form with
  | list opening closing count => exact h
  | atom a => cases h

namespace ContentTable

variable {table : ContentTable} {key : ContentKey}

/-- A look-up gives a known class, or the next number to a new one. -/
theorem Valid.countsUp_intern (h : table.Valid) (key : ContentKey) :
    CountsUp table.size [(table.intern key).1] (table.intern key).2.size := by
  unfold ContentTable.intern
  split
  · rename_i id hid
    exact .known (h.one_le hid) (h.le_size hid) .done
  · rename_i hnone
    have hnew : key ∉ table := by simpa using hnone
    rw [Std.HashMap.size_insert, if_neg hnew]
    exact .new .done

def Ascending (table : ContentTable) : Prop :=
  ∀ (key : ContentKey) (id : ContentId), table[key]? = some id → ∀ c ∈ key.children, c < id

theorem ascending_empty : Ascending ∅ := by
  intro key id h
  simp at h

/-- A new class is greater than all that are in the table. -/
theorem Ascending.intern (h : table.Ascending) (hkey : ∀ c ∈ key.children, c ≤ table.size) :
    (table.intern key).2.Ascending := by
  unfold ContentTable.intern
  split
  · exact h
  · intro key' id hid c hc
    rw [Std.HashMap.getElem?_insert] at hid
    split at hid
    · rename_i heq
      obtain rfl := eq_of_beq heq
      cases hid
      exact Nat.lt_succ_of_le (hkey c hc)
    · exact h key' id hid c hc

end ContentTable

namespace Classified

variable {table : ContentTable}

/-- The pass counts up the classes from those in the table. -/
theorem countsUp_classify (h : table.Valid) (f : Forest Placed) :
    CountsUp table.size ((classify table f).1.postorder.map contentId)
      (classify table f).2.size := by
  induction f generalizing table with
  | nil => exact .done
  | cons n children rest ihc ihr =>
    obtain ⟨hbelow, -, -⟩ := filed_classify h children
    let key := ContentKey.of ((classify table children).1.roots.map contentId) n.node.form
    obtain ⟨hown, -, -⟩ := hbelow.intern key
    have hfirst := (ihc h).append (hbelow.countsUp_intern key)
    have hall := hfirst.append (ihr hown)
    rw [List.append_assoc, List.singleton_append] at hall
    simpa only [classify, Forest.postorder, List.map_append, List.map_cons] using hall

/-- The classes of filed nodes are in the table. -/
theorem Filed.contentId_le_size {f : Forest Classified} (hf : Filed table f) (h : table.Valid) :
    ∀ c ∈ f.roots.map contentId, c ≤ table.size := by
  intro c hc
  rw [Forest.roots_eq_map_trees, List.map_map, List.mem_map] at hc
  obtain ⟨t, ht, rfl⟩ := hc
  exact h.le_size (hf t (Forest.mem_subtrees_of_mem_trees ht))

/-- The pass keeps the table ascending, since the children of a list are entered before it. -/
theorem ascending_classify (h : table.Valid) (hasc : table.Ascending) (f : Forest Placed) :
    (classify table f).2.Ascending := by
  induction f generalizing table with
  | nil => exact hasc
  | cons n children rest ihc ihr =>
    obtain ⟨hbelow, -, hfiled⟩ := filed_classify h children
    let key := ContentKey.of ((classify table children).1.roots.map contentId) n.node.form
    obtain ⟨hown, -, -⟩ := hbelow.intern key
    have hkey : ∀ c ∈ key.children, c ≤ (classify table children).2.size := fun c hc =>
      hfiled.contentId_le_size hbelow c (ContentKey.mem_of_mem_children hc)
    exact ihr hown ((ihc h hasc).intern hkey)

end Classified

/-! ## Classes with a single node -/

namespace Tally

/-- A tally has one entry with a count of one for each class that occurs once. -/
theorem Counts.singles_eq {tally : Tally} {ids : List ContentId} (h : Counts tally ids) :
    tally.singles = (ids.filter fun id => ids.count id == 1).length := by
  let entries := tally.toList.filter fun entry => entry.2 == 1
  have hlength : tally.singles = (entries.map Prod.fst).length := (List.length_map _).symm
  have hentries : (entries.map Prod.fst).Nodup := by
    refine List.Nodup.sublist (List.filter_sublist.map Prod.fst) ?_
    rw [Std.HashMap.map_fst_toList_eq_keys]
    exact Std.HashMap.nodup_keys
  have hids : (ids.filter fun id => ids.count id == 1).Nodup := by
    rw [List.nodup_iff_count_le_one]
    intro id
    by_cases hone : ids.count id = 1
    · exact (List.filter_sublist.count_le id).trans_eq hone
    · rw [List.count_eq_zero.mpr (by simp [hone])]
      exact Nat.zero_le 1
  rw [hlength]
  refine List.Perm.length_eq ((List.perm_ext_iff_of_nodup hentries hids).mpr fun id => ?_)
  have hmem : id ∈ entries.map Prod.fst ↔ tally[id]? = some 1 := by
    rw [← Std.HashMap.mem_toList_iff_getElem?_eq_some]
    simp only [entries, List.mem_map, List.mem_filter, beq_iff_eq]
    constructor
    · rintro ⟨⟨_, _⟩, ⟨hentry, rfl⟩, rfl⟩
      exact hentry
    · exact fun hentry => ⟨(id, 1), ⟨hentry, rfl⟩, rfl⟩
  rw [hmem, h id, List.mem_filter, beq_iff_eq]
  split
  · rename_i hid
    simp [hid]
  · rename_i hid
    simp [hid]

end Tally

/-! ## Classes of an indexed pair -/

/-- The classes of equal content among the nodes that the roots reach, each as the set of its keys. -/
def Nodes.contentClasses (nodes : Nodes) (roots : List Key) : Set (Set Key) :=
  {c | ∃ k, nodes.Reaches roots k ∧ c = {l | nodes.Reaches roots l ∧ nodes.SameContent k l}}

namespace Pair

variable {p : Pair} {nodes : Nodes} {lhs rhs : List (Tree Node)} {t c : Tree Linked}

/-- Along the nodes of the left side and then the right one, both in post-order, the classes are
numbered by their first occurrence. The numbers go up to the number of classes, and a node has a greater
one than its children. -/
structure ClassesInOrder (p : Pair) (nodes : Nodes) (roots roots' : List Key) : Prop where
  postorder : ∃ ls rs, roots.mapM nodes.item = .ok ls ∧ roots'.mapM nodes.item = .ok rs ∧
    (p.lhs.postorder ++ p.rhs.postorder).map (·.node) =
      (Forest.ofTrees ls).postorder ++ (Forest.ofTrees rs).postorder
  numbered : NumberedByFirst ((p.lhs.postorder ++ p.rhs.postorder).map (·.contentId))
  used_iff : ∀ id, (∃ k t, nodes.Reaches (roots ++ roots') k ∧ p.node k = .ok t ∧
    t.label.contentId = id) ↔ 1 ≤ id ∧ id ≤ p.classes
  classes : (nodes.contentClasses (roots ++ roots')).encard = p.classes
  singles : {k | ∃ t, p.node k = .ok t ∧ t.label.unique = true}.encard = p.singles
  child_lt : ∀ {k t}, p.node k = .ok t → ∃ cs, p.children k = .ok cs ∧
    ∀ c ∈ cs, c.label.contentId < t.label.contentId
  logged : ∀ before after sizes, sizes = s!"lhs={p.sideSize .lhs} rhs={p.sideSize .rhs}" →
    (Cli.logOf p before after).head? =
      some s!"DEBUG indexed syntax pair {sizes} classes={p.classes} unique={p.singles}"

/-- A class is looked up by the classes of the children. -/
theorem contentKey_toClassified (t : Tree Linked) : (t.map (·.toClassified)).contentKey =
    .of (t.children.trees.map (·.label.contentId)) t.label.node.form := by
  change ContentKey.of ((t.children.map _).roots.map _) t.label.node.form = _
  rw [Forest.roots_eq_map_trees, Forest.trees_map, List.map_map, List.map_map]
  rfl

namespace Indexes

/-- The classes are counted up along the post-order of both sides. -/
theorem countsUp (h : p.Indexes nodes lhs rhs) :
    CountsUp 0 (p.all.postorder.map (·.contentId)) p.classes := by
  have hpass := Classified.countsUp_classify ContentTable.valid_empty (p.all.map (·.toPlaced))
  rw [← h.classified, ← h.classes_eq, Forest.postorder_map, List.map_map] at hpass
  exact hpass

/-- The numbers in use are those from one to the number of classes. -/
theorem exists_contentId_iff (h : p.Indexes nodes lhs rhs) {id : ContentId} :
    (∃ t ∈ p.all.subtrees, t.label.contentId = id) ↔ 1 ≤ id ∧ id ≤ p.classes := by
  have hused : id ∈ p.all.postorder.map (·.contentId) ↔
      ∃ t ∈ p.all.subtrees, t.label.contentId = id := by
    rw [((p.all.postorder_perm_preorder).map (·.contentId)).mem_iff,
      Forest.preorder_eq_map_subtrees, List.map_map, List.mem_map]
    rfl
  have hmem := h.countsUp.mem_iff id
  rw [← hused]
  grind

/-- Atoms have no children. -/
theorem trees_of_atom {b : Builder} (h : p.Indexes b.nodes lhs rhs) (hb : b.Normalizing)
    (ht : t ∈ p.all.subtrees) {a : Atom} (hform : t.label.node.form = .atom a) :
    t.children.trees = [] := by
  have hleaf := (hb.normal (h.stores_built hb.sound.coherent ht)).leaf hform
  rwa [Tree.childKeys_built, List.map_eq_nil_iff] at hleaf

/-- A node has a greater class than its children. -/
theorem contentId_lt {b : Builder} (h : p.Indexes b.nodes lhs rhs) (hb : b.Normalizing)
    (ht : t ∈ p.all.subtrees) (hc : c ∈ t.children.trees) :
    c.label.contentId < t.label.contentId := by
  cases hform : t.label.node.form with
  | list opening closing count =>
    obtain ⟨-, -, hfiled⟩ :=
      Classified.filed_classify ContentTable.valid_empty (p.all.map (·.toPlaced))
    have hasc := Classified.ascending_classify ContentTable.valid_empty ContentTable.ascending_empty
      (p.all.map (·.toPlaced))
    rw [← h.classified] at hfiled
    refine hasc _ _ (hfiled _ (mem_subtrees_toClassified ht)) c.label.contentId ?_
    rw [contentKey_toClassified, hform]
    exact List.mem_map_of_mem hc
  | atom a =>
    rw [h.trees_of_atom hb ht hform] at hc
    cases hc

/-- There are as many classes of equal content as there are numbers. -/
theorem encard_contentClasses (h : p.Indexes nodes lhs rhs) (hn : nodes.Coherent) :
    (nodes.contentClasses (lhs.map Tree.key ++ rhs.map Tree.key)).encard = p.classes := by
  let members (id : ContentId) : Set Key :=
    {l | ∃ u ∈ p.all.subtrees, u.label.node.key = l ∧ u.label.contentId = id}
  have hclass : ∀ t ∈ p.all.subtrees, {l | nodes.Reaches (lhs.map Tree.key ++ rhs.map Tree.key) l ∧
      nodes.SameContent t.label.node.key l} = members t.label.contentId := by
    intro t ht
    ext l
    constructor
    · rintro ⟨hl, hsame⟩
      obtain ⟨u, hu, rfl⟩ := (h.reaches_iff hn).mp hl
      exact ⟨u, hu, rfl, ((h.sameContent_iff hn ht hu).mp hsame).symm⟩
    · rintro ⟨u, hu, rfl, hid⟩
      exact ⟨(h.reaches_iff hn).mpr ⟨u, hu, rfl⟩, (h.sameContent_iff hn ht hu).mpr hid.symm⟩
  -- Every number stands for the keys of its nodes, and no two stand for the same keys.
  have himage : nodes.contentClasses (lhs.map Tree.key ++ rhs.map Tree.key) =
      members '' (Finset.Icc 1 p.classes) := by
    ext c
    constructor
    · rintro ⟨k, hk, rfl⟩
      obtain ⟨t, ht, rfl⟩ := (h.reaches_iff hn).mp hk
      refine ⟨t.label.contentId, ?_, (hclass t ht).symm⟩
      exact Finset.mem_coe.mpr (Finset.mem_Icc.mpr (h.exists_contentId_iff.mp ⟨t, ht, rfl⟩))
    · rintro ⟨id, hid, rfl⟩
      obtain ⟨t, ht, rfl⟩ := h.exists_contentId_iff.mpr (Finset.mem_Icc.mp (Finset.mem_coe.mp hid))
      exact ⟨_, (h.reaches_iff hn).mpr ⟨t, ht, rfl⟩, (hclass t ht).symm⟩
  have hinj : Set.InjOn members (Finset.Icc 1 p.classes) := by
    intro id hid id' _ heq
    obtain ⟨t, ht, rfl⟩ := h.exists_contentId_iff.mpr (Finset.mem_Icc.mp (Finset.mem_coe.mp hid))
    have hmem : t.label.node.key ∈ members id' := heq ▸ ⟨t, ht, rfl, rfl⟩
    obtain ⟨u, hu, hkey, rfl⟩ := hmem
    rw [h.key_inj hu ht hkey]
  rw [himage, hinj.encard_image, Set.encard_coe_eq_coe_finsetCard, Nat.card_Icc,
    Nat.add_sub_cancel]

/-- There are as many marked nodes as there are classes with a single node. -/
theorem length_filter_unique (h : p.Indexes nodes lhs rhs) :
    (p.all.subtrees.filter (·.label.unique)).length = p.singles := by
  rw [h.singles_eq, p.counts_contentId.singles_eq, List.filter_map, List.length_map]
  congr 1
  exact List.filter_congr fun t ht => h.unique_eq_count ht

theorem encard_unique (h : p.Indexes nodes lhs rhs) (hn : nodes.Coherent) :
    {k | ∃ t, p.node k = .ok t ∧ t.label.unique = true}.encard = p.singles := by
  let marked := (p.all.subtrees.filter (·.label.unique)).map fun t => t.label.node.key
  have hnodup : marked.Nodup := h.nodup_keys.sublist (List.filter_sublist.map _)
  have hmem : {k | ∃ t, p.node k = .ok t ∧ t.label.unique = true} = {k | k ∈ marked} := by
    ext k
    simp only [Set.mem_ofPred_eq, marked, List.mem_map, List.mem_filter, h.node_eq_ok_iff hn]
    grind
  rw [hmem, encard_mem_of_nodup hnodup, List.length_map, h.length_filter_unique]

end Indexes

/-- The content classes of every indexed pair are numbered in the order in which they are first met,
every node after its children and the left side before the right one. There are as many as it says, and
so are the nodes with unique content. -/
theorem classes_in_order {b : Builder} (hb : b.Reachable) {roots roots' : List Key}
    (hp : b.nodes.index roots roots' = .ok p) : p.ClassesInOrder b.nodes roots roots' := by
  have hn := hb.sound.coherent
  obtain ⟨lhs, rhs, rfl, rfl, h⟩ := hn.indexes hp
  obtain ⟨hls, hrs⟩ := List.forall_mem_append.mp h.stores
  have hall : p.lhs.postorder ++ p.rhs.postorder = p.all.postorder :=
    (Forest.postorder_append p.lhs p.rhs).symm
  refine {
    postorder := ⟨lhs, rhs, Nodes.mapM_item_map_key hls, Nodes.mapM_item_map_key hrs, ?_⟩
    numbered := hall ▸ h.countsUp.numberedByFirst
    used_iff := fun id => ?_
    classes := h.encard_contentClasses hn
    singles := h.encard_unique hn
    child_lt := ?_
    logged := fun before after sizes hsizes => hsizes ▸ rfl }
  · rw [List.map_append, ← Forest.postorder_map, ← Forest.postorder_map, ← h.built_lhs, ← h.built_rhs]
    rfl
  · rw [← h.exists_contentId_iff]
    constructor
    · rintro ⟨k, t, -, hk, hid⟩
      exact ⟨t, ((h.node_eq_ok_iff hn).mp hk).1, hid⟩
    · rintro ⟨t, ht, hid⟩
      exact ⟨_, t, (h.reaches_iff hn).mpr ⟨t, ht, rfl⟩, (h.node_eq_ok_iff hn).mpr ⟨ht, rfl⟩, hid⟩
  · intro k t hk
    obtain ⟨ht, rfl⟩ := (h.node_eq_ok_iff hn).mp hk
    obtain ⟨side, hside⟩ := mem_all_iff.mp ht
    exact ⟨t.children.trees, h.children_eq hn hside, fun c hc => h.contentId_lt hb.normalizing ht hc⟩

/-- A list with an atom that occurs twice, on both sides, and an atom after it. The second list is of a
class that was met before, and so are its children. -/
theorem classes_in_order_repeated :
    ∃ (b : Builder) (p : Pair) (s t : Tree Linked),
      b = ((Builder.empty.buildAll
          [.list ⟨[], "("⟩ [.atom ⟨[], "x", .normal⟩, .atom ⟨[], "y", .normal⟩,
            .atom ⟨[], "x", .normal⟩] ⟨[], ")"⟩]).2.buildAll
        [.list ⟨[], "("⟩ [.atom ⟨[], "x", .normal⟩, .atom ⟨[], "y", .normal⟩,
          .atom ⟨[], "x", .normal⟩] ⟨[], ")"⟩, .atom ⟨[], "z", .normal⟩]).2 ∧
      b.nodes.index [3] [7, 8] = .ok p ∧ p.ClassesInOrder b.nodes [3] [7, 8] ∧
      p.node 7 = .ok s ∧ p.node 6 = .ok t ∧ t.label.contentId < s.label.contentId ∧
      s.label.contentId ≤ p.classes := by
  obtain ⟨hb, p, hp⟩ := Builder.exists_index_of_buildAll
    [.list ⟨[], "("⟩ [.atom ⟨[], "x", .normal⟩, .atom ⟨[], "y", .normal⟩,
      .atom ⟨[], "x", .normal⟩] ⟨[], ")"⟩]
    [.list ⟨[], "("⟩ [.atom ⟨[], "x", .normal⟩, .atom ⟨[], "y", .normal⟩,
      .atom ⟨[], "x", .normal⟩] ⟨[], ")"⟩, .atom ⟨[], "z", .normal⟩] [3] [7, 8] rfl rfl
  have h := classes_in_order hb hp
  have hn := hb.sound.coherent
  obtain ⟨lhs, rhs, hl, hr, hindexes⟩ := hn.indexes hp
  obtain ⟨s, -, hs, -⟩ := hindexes.node_of_reaches hn (k := 7) (hl ▸ hr ▸ .root (by simp))
  obtain ⟨cs, hcs, hlt⟩ := h.child_lt hs
  have hrow : [4, 5, 6].mapM p.node = .ok cs := by
    rw [Pair.children, hindexes.nodes_eq] at hcs
    exact hcs
  obtain _ | ⟨-, _ | ⟨-, _ | ⟨ht, _ | _⟩⟩⟩ := mapM_eq_ok_iff.mp hrow
  have hle := ((h.used_iff s.label.contentId).mp ⟨7, s, .root (by simp), hs, rfl⟩).2
  exact ⟨_, p, s, _, rfl, hp, h, hs, ht, hlt _ (by simp), hle⟩

end Pair

end TwinForest
