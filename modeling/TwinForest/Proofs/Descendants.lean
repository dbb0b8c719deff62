import TwinForest.Proofs.Building

/-!
# Counts of descendants

The count that a builder writes into a list is the number of nodes below it. Atoms have nothing below
them. Both are one statement on the weight of a node, which every call keeps.
-/

namespace TwinForest

def Tree.Weighed (t : Tree Node) : Prop :=
  t.label.form.weight = t.children.size + 1

def Nodes.Weighed (nodes : Nodes) : Prop :=
  ∀ k t, nodes.get? k = some t → t.Weighed

namespace Builder

variable {b : Builder}

theorem weigh_eq_size {ts : List (Tree Node)} (h : ∀ t ∈ ts, t.Weighed) :
    weigh ts = (Forest.ofTrees ts).size := by
  induction ts with
  | nil => rfl
  | cons t ts ih =>
    have hfirst : t.label.form.weight = t.children.size + 1 := h t List.mem_cons_self
    have hrest : weigh ts = (Forest.ofTrees ts).size :=
      ih fun u hu => h u (List.mem_cons_of_mem _ hu)
    change t.label.form.weight + weigh ts = t.children.size + (Forest.ofTrees ts).size + 1
    omega

theorem weighed_push (h : b.nodes.Weighed) {form : Form} {children : Forest Node}
    (hform : form.weight = children.size + 1) : (b.push form children).2.nodes.Weighed := by
  intro k t hget
  change (b.nodes.alloc ⟨⟨b.nodes.size, form⟩, children⟩).2.get? k = some t at hget
  rw [Store.get?_alloc] at hget
  split at hget
  · cases hget
    exact hform
  · exact h k t hget

theorem weighed_list (hb : b.Sound) (h : b.nodes.Weighed) (opening closing : Delimiter)
    (keys : List Key) : (b.list opening closing keys).2.nodes.Weighed := by
  rcases list_state_cases b opening closing keys with he | ⟨ts, hfound, hcases⟩
  · rw [he]
    exact h
  · rcases hcases with he | ⟨-, -, he⟩
    · rw [he]
      exact h
    · obtain ⟨-, hstored⟩ := hb.coherent.mapM_item hfound
      have hkept : weigh (kept ts) = (Forest.ofTrees (kept ts)).size :=
        weigh_eq_size fun t ht => h _ t (hstored t (kept_sublist.subset ht))
      rw [he]
      exact weighed_push h (congrArg (· + 1) hkept)

/-- In every reachable builder, the weight of a node is the number of nodes in its tree. -/
theorem Reachable.weighed (hb : b.Reachable) : b.nodes.Weighed := by
  have hinv : Invariant fun b => b.Sound ∧ b.nodes.Weighed := {
    empty := ⟨sound_invariant.empty, fun k t h => by simp [Builder.empty, Store.empty, Store.get?] at h⟩
    atom := fun a ⟨hsound, h⟩ => ⟨sound_invariant.atom a hsound, weighed_push h rfl⟩
    list := fun opening closing keys ⟨hsound, h⟩ =>
      ⟨hsound.list opening closing keys, weighed_list hsound h opening closing keys⟩ }
  exact (hinv.holds hb).2

end Builder

end TwinForest
