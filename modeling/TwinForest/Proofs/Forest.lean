import TwinForest.Forest

/-!
# Laws of forests

How the views of a forest fit together: its trees, its labels in pre-order, its subtrees, and the
walk that visits them. A change of labels and an append go through all of them.
-/

namespace TwinForest

/-- Every node of a tree with everything below it, the root first. -/
def Tree.subtrees {α : Type u} (t : Tree α) : List (Tree α) :=
  t :: t.children.subtrees

namespace Forest

variable {α : Type u} {β : Type v} {γ : Type w}

@[simp] theorem nil_append (g : Forest α) : nil ++ g = g := rfl

@[simp] theorem cons_append (a : α) (children rest g : Forest α) :
    cons a children rest ++ g = cons a children (rest ++ g) := rfl

/-! ## Lists of trees -/

@[simp] theorem trees_ofTrees (ts : List (Tree α)) : (ofTrees ts).trees = ts := by
  induction ts with
  | nil => rfl
  | cons t ts ih => simp [ofTrees, trees, ih]

@[simp] theorem ofTrees_trees (f : Forest α) : ofTrees f.trees = f := by
  induction f with
  | nil => rfl
  | cons a children rest _ ih => simp [ofTrees, trees, ih]

theorem ofTrees_append (ts us : List (Tree α)) : ofTrees (ts ++ us) = ofTrees ts ++ ofTrees us := by
  induction ts with
  | nil => rfl
  | cons t ts ih => simp [ofTrees, ih]

theorem roots_eq_map_trees (f : Forest α) : f.roots = f.trees.map Tree.label := by
  induction f with
  | nil => rfl
  | cons a children rest _ ih => simp [roots, trees, ih]

/-! ## Pre-order -/

@[simp] theorem preorder_append (f g : Forest α) :
    (f ++ g).preorder = f.preorder ++ g.preorder := by
  induction f with
  | nil => rfl
  | cons a children rest _ ih => simp [preorder, ih]

@[simp] theorem subtrees_append (f g : Forest α) :
    (f ++ g).subtrees = f.subtrees ++ g.subtrees := by
  induction f with
  | nil => rfl
  | cons a children rest _ ih => simp [subtrees, ih]

theorem preorder_eq_map_subtrees (f : Forest α) : f.preorder = f.subtrees.map Tree.label := by
  induction f with
  | nil => rfl
  | cons a children rest ihc ihr => simp [preorder, subtrees, ihc, ihr]

theorem subtrees_ofTrees (ts : List (Tree α)) :
    (ofTrees ts).subtrees = ts.flatMap Tree.subtrees := by
  induction ts with
  | nil => rfl
  | cons t ts ih => simp [ofTrees, subtrees, Tree.subtrees, ih]

/-- The roots come in order among all nodes. -/
theorem trees_sublist_subtrees (f : Forest α) : f.trees.Sublist f.subtrees := by
  induction f with
  | nil => exact .slnil
  | cons a children rest _ ih => exact (ih.trans (List.sublist_append_right _ _)).cons_cons _

theorem mem_subtrees_of_mem_trees {f : Forest α} {t : Tree α} (h : t ∈ f.trees) :
    t ∈ f.subtrees :=
  f.trees_sublist_subtrees.subset h

/-- What lies below a subtree is a subtree. -/
theorem mem_subtrees_trans {f : Forest α} {s t : Tree α} (ht : t ∈ f.subtrees)
    (hs : s ∈ t.children.subtrees) : s ∈ f.subtrees := by
  induction f with
  | nil => cases ht
  | cons a children rest ihc ihr =>
    simp only [subtrees, List.mem_cons, List.mem_append] at ht ⊢
    rcases ht with rfl | ht | ht
    · exact .inr (.inl hs)
    · exact .inr (.inl (ihc ht))
    · exact .inr (.inr (ihr ht))

theorem mem_subtrees_child {f : Forest α} {t c : Tree α} (ht : t ∈ f.subtrees)
    (hc : c ∈ t.children.trees) : c ∈ f.subtrees :=
  mem_subtrees_trans ht (mem_subtrees_of_mem_trees hc)

/-- What the roots have, and every child of a node that has it, all nodes have. -/
theorem forall_subtrees {P : Tree α → Prop} {f : Forest α} (hroots : ∀ t ∈ f.trees, P t)
    (hchild : ∀ t, P t → ∀ c ∈ t.children.trees, P c) : ∀ t ∈ f.subtrees, P t := by
  induction f with
  | nil => intro t ht; cases ht
  | cons a children rest ihc ihr =>
    simp only [trees, List.forall_mem_cons] at hroots
    obtain ⟨hroot, hrest⟩ := hroots
    intro t ht
    simp only [subtrees, List.mem_cons, List.mem_append] at ht
    rcases ht with rfl | ht | ht
    · exact hroot
    · exact ihc (hchild _ hroot) t ht
    · exact ihr hrest t ht

/-- The subtrees of a subtree come one after the other. -/
theorem subtrees_infix {f : Forest α} {t : Tree α} (ht : t ∈ f.subtrees) :
    t.subtrees <:+: f.subtrees := by
  induction f with
  | nil => cases ht
  | cons a children rest ihc ihr =>
    simp only [subtrees, List.mem_cons, List.mem_append] at ht
    rcases ht with rfl | ht | ht
    · exact ⟨[], rest.subtrees, by simp [subtrees, Tree.subtrees]⟩
    · exact (ihc ht).trans ⟨[⟨a, children⟩], rest.subtrees, by simp [subtrees]⟩
    · exact (ihr ht).trans ⟨⟨a, children⟩ :: children.subtrees, [], by simp [subtrees]⟩

/-- A walk visits every subtree once, in pre-order. -/
theorem walk_eq_subtrees (f : Forest α) : f.walk = f.subtrees := by
  -- One step trades the first node for its children, so the induction is on the number of nodes.
  induction h : f.size generalizing f with
  | zero =>
    cases f with
    | nil => simp [walk, next?, subtrees]
    | cons a children rest => simp [size] at h
  | succ n ih =>
    cases f with
    | nil => simp [size] at h
    | cons a children rest =>
      have hn : (children ++ rest).size = n := by
        rw [size_append]
        simp only [size] at h
        omega
      rw [walk]
      simp only [next?]
      rw [ih _ hn, subtrees_append, subtrees]

/-! ## Changed labels -/

@[simp] theorem map_append (g : α → β) (f f' : Forest α) :
    (f ++ f').map g = f.map g ++ f'.map g := by
  induction f with
  | nil => rfl
  | cons a children rest _ ih => simp [map, ih]

@[simp] theorem map_id (f : Forest α) : f.map id = f := by
  induction f with
  | nil => rfl
  | cons a children rest ihc ihr => simp [map, ihc, ihr]

@[simp] theorem map_map (g : β → γ) (h : α → β) (f : Forest α) :
    (f.map h).map g = f.map (g ∘ h) := by
  induction f with
  | nil => rfl
  | cons a children rest ihc ihr => simp [map, ihc, ihr]

theorem trees_map (g : α → β) (f : Forest α) : (f.map g).trees = f.trees.map (Tree.map g) := by
  induction f with
  | nil => rfl
  | cons a children rest _ ih => simp [map, trees, Tree.map, ih]

@[simp] theorem preorder_map (g : α → β) (f : Forest α) :
    (f.map g).preorder = f.preorder.map g := by
  induction f with
  | nil => rfl
  | cons a children rest ihc ihr => simp [map, preorder, ihc, ihr]

theorem subtrees_map (g : α → β) (f : Forest α) :
    (f.map g).subtrees = f.subtrees.map (Tree.map g) := by
  induction f with
  | nil => rfl
  | cons a children rest ihc ihr => simp [map, subtrees, Tree.map, ihc, ihr]

/-! ## Sizes -/

@[simp] theorem size_map (g : α → β) (f : Forest α) : (f.map g).size = f.size := by
  induction f with
  | nil => rfl
  | cons a children rest ihc ihr => simp [map, size, ihc, ihr]

@[simp] theorem width_map (g : α → β) (f : Forest α) : (f.map g).width = f.width := by
  induction f with
  | nil => rfl
  | cons a children rest _ ih => simp [map, width, ih]

theorem width_eq_length (f : Forest α) : f.width = f.trees.length := by
  induction f with
  | nil => rfl
  | cons a children rest _ ih => simp [width, trees, ih]

theorem length_preorder (f : Forest α) : f.preorder.length = f.size := by
  induction f with
  | nil => rfl
  | cons a children rest ihc ihr => simp [preorder, size, ihc, ihr]

theorem length_subtrees (f : Forest α) : f.subtrees.length = f.size := by
  rw [← length_preorder, preorder_eq_map_subtrees, List.length_map]

end Forest

end TwinForest
