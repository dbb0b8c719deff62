import Mathlib.Data.List.Perm.Basic
import TwinForest.Indexed.Linked
import TwinForest.Proofs.Nodes

/-!
# The passes over a forest

Every pass adds to the nodes of a forest and leaves the rest as it is, so a pass can be undone by
forgetting what it added. The passes that share a table between both sides treat the two forests as
one.
-/

namespace TwinForest

/-! ## Numbering -/

theorem Placed.map_node_number (parent : Option Key) (ancestors waiting : Nat) (next : NodeId)
    (f : Forest Node) : (number parent ancestors waiting next f).1.map Placed.node = f := by
  induction f generalizing parent ancestors waiting next with
  | nil => rfl
  | cons n children rest ihc ihr => simp [number, Forest.map, ihc, ihr]

/-! ## Content classes -/

namespace Classified

theorem map_toPlaced_classify (table : ContentTable) (f : Forest Placed) :
    (classify table f).1.map toPlaced = f := by
  induction f generalizing table with
  | nil => rfl
  | cons n children rest ihc ihr => simp [classify, Forest.map, ihc, ihr]

theorem classify_append (table : ContentTable) (f g : Forest Placed) :
    classify table (f ++ g) =
      ((classify table f).1 ++ (classify (classify table f).2 g).1,
        (classify (classify table f).2 g).2) := by
  induction f generalizing table with
  | nil => rfl
  | cons n children rest _ ih => simp [classify, ih]

end Classified

/-! ## Tallies -/

namespace Tally

variable {tally : Tally} {ids ids' : List ContentId}

/-- The tally has the number of times that every class occurs in the list, and nothing for a class
that does not. -/
def Counts (tally : Tally) (ids : List ContentId) : Prop :=
  ∀ id, tally[id]? = if id ∈ ids then some (ids.count id) else none

theorem Counts.empty : Counts ∅ [] := by
  intro id
  simp

theorem Counts.perm (h : Counts tally ids) (hids : ids.Perm ids') : Counts tally ids' := by
  intro id
  rw [h id, hids.count_eq id]
  simp only [hids.mem_iff]

theorem Counts.add (h : Counts tally ids) (id : ContentId) : Counts (tally.add id) (id :: ids) := by
  intro k
  have hold : tally.getD id 0 = ids.count id := by
    rw [Std.HashMap.getD_eq_getD_getElem?, h id]
    split
    · rfl
    · rename_i hid
      exact (List.count_eq_zero.mpr hid).symm
  rw [Tally.add, Std.HashMap.getElem?_insert, hold]
  by_cases hk : id = k
  · subst hk
    simp
  · simp [hk, Ne.symm hk, h k]

/-- Counting a forest adds one for each of its nodes. -/
theorem Counts.count (h : Counts tally ids) (f : Forest Classified) :
    Counts (tally.count f) (f.preorder.map Classified.contentId ++ ids) := by
  induction f generalizing tally ids with
  | nil => exact h
  | cons n children rest ihc ihr =>
    refine (ihr (ihc (h.add n.contentId))).perm (List.perm_iff_count.mpr fun id => ?_)
    simp only [Forest.preorder, List.map_cons, List.map_append, List.cons_append,
      List.count_append, List.count_cons]
    omega

theorem count_append (tally : Tally) (f g : Forest Classified) :
    tally.count (f ++ g) = (tally.count f).count g := by
  induction f generalizing tally with
  | nil => rfl
  | cons n children rest _ ih => simp [count, ih]

end Tally

/-! ## Marks -/

namespace Marked

variable {tally : Tally} {f : Forest Classified} {g : Forest Marked}

/-- A marked forest has marked children and a marked rest. -/
theorem mark_cons_eq_ok {n : Classified} {children rest : Forest Classified} :
    mark tally (.cons n children rest) = .ok g ↔
      ∃ count children' rest', tally[n.contentId]? = some count ∧
        mark tally children = .ok children' ∧ mark tally rest = .ok rest' ∧
        g = .cons { n with unique := count == 1 } children' rest' := by
  rw [mark]
  cases tally[n.contentId]? with
  | none => simp
  | some count =>
    simp only [bind_eq_ok_iff]
    constructor
    · rintro ⟨children', hc, rest', hr, h⟩
      cases h
      exact ⟨count, children', rest', rfl, hc, hr, rfl⟩
    · rintro ⟨_, children', rest', hcount, hc, hr, rfl⟩
      cases hcount
      exact ⟨children', hc, rest', hr, rfl⟩

theorem map_toClassified_mark (h : mark tally f = .ok g) : g.map toClassified = f := by
  induction f generalizing g with
  | nil => cases h; rfl
  | cons n children rest ihc ihr =>
    obtain ⟨count, children', rest', -, hc, hr, rfl⟩ := mark_cons_eq_ok.mp h
    simp [Forest.map, ihc hc, ihr hr]

/-- A node is marked when its class has a single node. -/
theorem unique_of_mark (h : mark tally f = .ok g) :
    ∀ n ∈ g.preorder, ∃ count, tally[n.contentId]? = some count ∧ n.unique = (count == 1) := by
  induction f generalizing g with
  | nil => cases h; simp [Forest.preorder]
  | cons n children rest ihc ihr =>
    obtain ⟨count, children', rest', hn, hc, hr, rfl⟩ := mark_cons_eq_ok.mp h
    intro m hm
    simp only [Forest.preorder, List.mem_cons, List.mem_append] at hm
    rcases hm with rfl | hm | hm
    · exact ⟨count, hn, rfl⟩
    · exact ihc hc m hm
    · exact ihr hr m hm

/-- A forest can be marked when all its classes are counted. -/
theorem exists_mark (h : ∀ n ∈ f.preorder, tally[n.contentId]? ≠ none) :
    ∃ g, mark tally f = .ok g := by
  induction f with
  | nil => exact ⟨.nil, rfl⟩
  | cons n children rest ihc ihr =>
    obtain ⟨count, hn⟩ := Option.ne_none_iff_exists'.mp (h n (by simp [Forest.preorder]))
    obtain ⟨children', hc⟩ := ihc fun m hm => h m (by simp [Forest.preorder, hm])
    obtain ⟨rest', hr⟩ := ihr fun m hm => h m (by simp [Forest.preorder, hm])
    exact ⟨_, mark_cons_eq_ok.mpr ⟨count, children', rest', hn, hc, hr, rfl⟩⟩

theorem mark_append {f' : Forest Classified} {g' : Forest Marked} (h : mark tally f = .ok g)
    (h' : mark tally f' = .ok g') : mark tally (f ++ f') = .ok (g ++ g') := by
  induction f generalizing g with
  | nil => cases h; exact h'
  | cons n children rest _ ih =>
    obtain ⟨count, children', rest', hn, hc, hr, rfl⟩ := mark_cons_eq_ok.mp h
    exact mark_cons_eq_ok.mpr ⟨count, children', _, hn, hc, ih hr, rfl⟩

end Marked

/-! ## Links -/

/-- Nothing that the passes before gave is changed by the links. -/
theorem Linked.map_link {α : Type} (g : Marked → α) (parent previous : Option Key)
    (f : Forest Marked) : (link parent previous f).map (fun n => g n.toMarked) = f.map g := by
  induction f generalizing parent previous with
  | nil => rfl
  | cons n children rest ihc ihr => simp [link, Forest.map, ihc, ihr]

theorem Linked.map_toMarked_link (parent previous : Option Key) (f : Forest Marked) :
    (link parent previous f).map (·.toMarked) = f :=
  (Linked.map_link id parent previous f).trans f.map_id

end TwinForest
