import TwinForest.Proofs.Calls

/-!
# What the history of a worker dictates

A worker that started with nothing has in its table what its log says: a handle is live from the parse
that gave it until a request to take or release it, and behind it is the very list of trees that the
parser returned. So the log up to a request determines the reply.
-/

namespace TwinForest

namespace Exchange

def issued? (x : Exchange) : Option Handle :=
  match x.reply with
  | .parsed id => some id
  | _ => none

/-- The handle that a request has taken back, if there was a tree behind it. -/
def removed? (x : Exchange) : Option Handle :=
  match x.request, x.reply with
  | .takeTree id, .tree (some _) => some id
  | .releaseTree id, .released true => some id
  | _, _ => none

end Exchange

section

variable {σ : Type u} {parse : CodeParser σ} {state : σ} {log : List Exchange} {x : Exchange}
  {id : Handle} {trees : List ParseTree}

/-- A handle has been given for the trees that the parser returned, and no request has taken or released
it since. -/
def Live (parse : CodeParser σ) (state : σ) (log : List Exchange) (id : Handle)
    (trees : List ParseTree) : Prop :=
  ∃ before code after s s', log = before ++ ⟨.parseCode code, .parsed id⟩ :: after ∧
    parse.after state (before.filterMap fun x => x.request.code?) = some s ∧
    parse s code = .returned trees s' ∧ ∀ x ∈ after, x.request.forgotten? ≠ some id

/-- The reply to a request is the one for the handles that are live. -/
def Dictated (live : Handle → List ParseTree → Prop) : Request → Reply → Prop
  | .parseCode _, .parsed id => ∀ trees, ¬live id trees
  | .getParseString id, .treeString text
  | .getTreeString id, .treeString text =>
    ∀ s, text = some s ↔ ∃ trees, live id trees ∧ s = ParseTree.displayAll trees
  | .getTree id, .tree found
  | .takeTree id, .tree found => ∀ trees, found = some trees ↔ live id trees
  | .releaseTree id, .released was => was = true ↔ ∃ trees, live id trees
  | .getTreeCount, .treeCount count =>
    ∃ ids : List Handle, ids.Nodup ∧ (∀ id, id ∈ ids ↔ ∃ trees, live id trees) ∧ ids.length = count
  | _, _ => False

theorem Live.mem_issued (h : Live parse state log id trees) :
    id ∈ log.filterMap Exchange.issued? := by
  obtain ⟨before, code, after, s, s', rfl, -⟩ := h
  simp [Exchange.issued?]

/-- What is live after one more exchange: what it gives, and what was live and is not forgotten. -/
theorem live_concat {s : σ}
    (hs : parse.after state (log.filterMap fun x => x.request.code?) = some s) :
    Live parse state (log ++ [x]) id trees ↔
      (∃ code s', x = ⟨.parseCode code, .parsed id⟩ ∧ parse s code = .returned trees s') ∨
        (Live parse state log id trees ∧ x.request.forgotten? ≠ some id) := by
  constructor
  · rintro ⟨before, code, after, s₁, s', hlog, hs₁, hparse, hafter⟩
    rcases List.eq_nil_or_concat after with rfl | ⟨after, y, rfl⟩
    · obtain ⟨rfl, hx⟩ := List.append_inj' hlog rfl
      cases hx
      obtain rfl := Option.some.inj (hs.symm.trans hs₁)
      exact .inl ⟨code, s', rfl, hparse⟩
    · rw [List.concat_eq_append, ← List.cons_append, ← List.append_assoc] at hlog
      obtain ⟨rfl, hx⟩ := List.append_inj' hlog rfl
      cases hx
      refine .inr ⟨⟨before, code, after, s₁, s', rfl, hs₁, hparse, ?_⟩, hafter x (by simp)⟩
      intro y hy
      exact hafter y (by simp [hy])
  · rintro (⟨code, s', rfl, hparse⟩ | ⟨⟨before, code, after, s₁, s', rfl, hs₁, hparse, hafter⟩, hx⟩)
    · exact ⟨log, code, [], s, s', rfl, hs, hparse, by simp⟩
    · refine ⟨before, code, after ++ [x], s₁, s', by simp, hs₁, hparse, ?_⟩
      intro y hy
      rcases List.mem_append.mp hy with hy | hy
      · exact hafter y hy
      · obtain rfl := List.mem_singleton.mp hy
        exact hx

end

namespace Worker

variable {σ : Type} {svc : Service σ} {state : σ} {w w' : Worker σ} {log : List Exchange}
  {x : Exchange} {id : Handle} {trees : List ParseTree}

/-! ## The table -/

/-- The table has the live handles with their trees. -/
theorem Runs.getElem?_eq_some_iff_live (h : Runs svc (.new state) log w)
    (hfresh : (log.filterMap Exchange.issued?).Nodup) :
    w.trees[id]? = some trees ↔ Live svc.parse state log id trees := by
  induction h with
  | start => simp [Live, new]
  | @answer log w w' r reply hrun hhandle ih =>
    have hstate : svc.parse.after state (log.filterMap fun x => x.request.code?) = some w.state :=
      hrun.state_eq
    rw [List.filterMap_append, List.nodup_append] at hfresh
    obtain ⟨hlog, -, hnew⟩ := hfresh
    have hold := ih hlog
    rw [live_concat hstate, ← hold]
    rcases handle_cases hhandle with ⟨code, trees₁, s', rfl, hparse, rfl, rfl⟩ |
      ⟨hcode, id', hforget, rfl⟩ | ⟨hcode, hforget, rfl⟩
    · by_cases hid : svc.supply w.issued = id
      · -- The handle is new, so nothing was live under it.
        have hnone : w.trees[id]? ≠ some trees := by
          intro hsome
          exact hnew id (hold.mp hsome).mem_issued id (by simp [Exchange.issued?, hid]) rfl
        subst hid
        simp [hnone, hparse]
      · simp [Std.HashMap.getElem?_insert, hid, Request.forgotten?]
    · have hr : ∀ code, r ≠ .parseCode code := by
        rintro code rfl
        cases hcode
      by_cases hid : id' = id
      · simp [hid, hforget, hr]
      · simp [Std.HashMap.getElem?_erase, hid, hforget, hr]
    · have hr : ∀ code, r ≠ .parseCode code := by
        rintro code rfl
        cases hcode
      simp [hforget, hr]

/-- A handle that is in the table is live. -/
theorem Runs.mem_iff_live (h : Runs svc (.new state) log w)
    (hfresh : (log.filterMap Exchange.issued?).Nodup) :
    id ∈ w.trees ↔ ∃ trees, Live svc.parse state log id trees := by
  rw [Std.HashMap.mem_iff_isSome_getElem?, Option.isSome_iff_exists]
  exact exists_congr fun trees => h.getElem?_eq_some_iff_live hfresh

/-- The reply to a request is the one for what is live after the log. -/
theorem Runs.dictated (h : Runs svc (.new state) log w)
    (hfresh : ((log ++ [x]).filterMap Exchange.issued?).Nodup)
    (hx : w.handle svc.parse svc.supply x.request = .replied x.reply w') :
    Dictated (Live svc.parse state log) x.request x.reply := by
  rw [List.filterMap_append, List.nodup_append] at hfresh
  obtain ⟨hlog, -, hnew⟩ := hfresh
  have htable : ∀ id trees, w.trees[id]? = some trees ↔ Live svc.parse state log id trees :=
    fun id trees => h.getElem?_eq_some_iff_live hlog
  have htext : ∀ id text, w.trees[id]?.map ParseTree.displayAll = some text ↔
      ∃ trees, Live svc.parse state log id trees ∧ text = ParseTree.displayAll trees := by
    intro id text
    rw [Option.map_eq_some_iff]
    exact exists_congr fun trees => and_congr (htable id trees) eq_comm
  obtain ⟨r, reply⟩ := x
  cases r with
  | parseCode code =>
    obtain ⟨-, -, -, rfl, -⟩ := of_handle_parseCode hx
    intro trees hlive
    exact hnew _ hlive.mem_issued _ (by simp [Exchange.issued?]) rfl
  | getParseString id => cases hx; exact htext id
  | getTreeString id => cases hx; exact htext id
  | getTree id => cases hx; exact htable id
  | takeTree id => cases hx; exact htable id
  | releaseTree id =>
    cases hx
    change w.trees.contains id = true ↔ _
    rw [Std.HashMap.contains_iff_mem, h.mem_iff_live hlog]
  | getTreeCount =>
    cases hx
    exact ⟨w.trees.keys, w.trees.nodup_keys, fun id => by rw [Std.HashMap.mem_keys, h.mem_iff_live hlog],
      w.trees.length_keys⟩

/-! ## Handles that are taken back -/

/-- A handle is taken back only while it is in the table, and it leaves the table then. -/
theorem mem_of_removed? (h : w.handle svc.parse svc.supply x.request = .replied x.reply w')
    (hx : x.removed? = some id) : id ∈ w.trees ∧ id ∉ w'.trees := by
  obtain ⟨r, reply⟩ := x
  cases r with
  | takeTree id' =>
    cases h
    cases hfound : w.trees[id']? with
    | none => simp [Exchange.removed?, hfound] at hx
    | some trees =>
      obtain rfl : id' = id := by simpa [Exchange.removed?, hfound] using hx
      exact ⟨Std.HashMap.mem_iff_isSome_getElem?.mpr (by simp [hfound]), by simp⟩
  | releaseTree id' =>
    cases h
    cases hfound : w.trees.contains id' with
    | false => simp [Exchange.removed?, hfound] at hx
    | true =>
      obtain rfl : id' = id := by simpa [Exchange.removed?, hfound] using hx
      exact ⟨Std.HashMap.contains_iff_mem.mp hfound, by simp⟩
  | parseCode | getParseString | getTreeString | getTree | getTreeCount => cases hx

/-- A handle that has been taken back was given before, and stays out of the table. -/
theorem Runs.issued_of_removed (h : Runs svc (.new state) log w)
    (hfresh : (log.filterMap Exchange.issued?).Nodup) :
    ∀ id ∈ log.filterMap Exchange.removed?,
      id ∈ log.filterMap Exchange.issued? ∧ id ∉ w.trees := by
  induction h with
  | start => simp
  | @answer log w w' r reply hrun hhandle ih =>
    rw [List.filterMap_append, List.nodup_append] at hfresh
    obtain ⟨hlog, -, hnew⟩ := hfresh
    intro id hid
    rw [List.filterMap_append, List.mem_append] at hid ⊢
    rcases hid with hid | hid
    · obtain ⟨hissued, hout⟩ := ih hlog id hid
      refine ⟨.inl hissued, ?_⟩
      rcases handle_cases hhandle with ⟨code, trees, s', rfl, -, rfl, rfl⟩ | ⟨-, id', -, rfl⟩ |
        ⟨-, -, rfl⟩
      · have hne : id ≠ svc.supply w.issued := hnew id hissued _ (by simp [Exchange.issued?])
        simp [Std.HashMap.mem_insert, hout, hne.symm]
      · exact fun hmem => hout (Std.HashMap.mem_of_mem_erase hmem)
      · exact hout
    · have hx : Exchange.removed? ⟨r, reply⟩ = some id := by simpa using hid
      obtain ⟨hmem, hout⟩ := mem_of_removed? hhandle hx
      obtain ⟨trees, hlive⟩ := (hrun.mem_iff_live hlog).mp hmem
      exact ⟨.inl hlive.mem_issued, hout⟩

/-- No handle is taken back twice. -/
theorem Runs.nodup_removed (h : Runs svc (.new state) log w)
    (hfresh : (log.filterMap Exchange.issued?).Nodup) :
    (log.filterMap Exchange.removed?).Nodup := by
  induction h with
  | start => simp
  | @answer log w w' r reply hrun hhandle ih =>
    rw [List.filterMap_append] at hfresh ⊢
    have hlog := (List.nodup_append.mp hfresh).1
    have hlast : (List.filterMap Exchange.removed? [⟨r, reply⟩]).Nodup := by
      rw [List.filterMap_cons, List.filterMap_nil]
      split <;> simp
    refine List.nodup_append.mpr ⟨ih hlog, hlast, ?_⟩
    rintro id hid _ hx rfl
    have hx : Exchange.removed? ⟨r, reply⟩ = some id := by simpa using hx
    exact (hrun.issued_of_removed hlog id hid).2 (mem_of_removed? hhandle hx).1

/-! ## The whole history -/

/-- In a run from an empty table, as long as every parse draws a handle that was not used before:

* every request is answered, unless the parser does not return from it;
* at every point, the table has the handles that are live, each with the very trees that the parser
  returned for it;
* every reply is the one for what is live before it;
* no handle is taken back twice;
* no call of a caller, whatever the host has done so far, gets a reply of another kind. -/
theorem Runs.dictated_by_history (h : Runs svc (.new state) log w)
    (hfresh : (log.filterMap Exchange.issued?).Nodup) :
    (∀ r : Request, (∀ code, r = .parseCode code →
        ∃ trees s, svc.parse w.state code = .returned trees s) →
      ∃ reply w', Runs svc (.new state) (log ++ [⟨r, reply⟩]) w') ∧
    (∀ before after, log = before ++ after → ∃ w', Runs svc (.new state) before w' ∧
      Runs svc w' after w ∧
      ∀ id trees, w'.trees[id]? = some trees ↔ Live svc.parse state before id trees) ∧
    (∀ before x after, log = before ++ x :: after →
      Dictated (Live svc.parse state before) x.request x.reply) ∧
    (log.filterMap Exchange.removed?).Nodup ∧
    ∀ host : Host σ, host.Reachable svc → Client.TypedCalls svc host := by
  refine ⟨?_, ?_, ?_, h.nodup_removed hfresh,
    fun host hhost => Client.typedCalls hhost.accounted⟩
  · intro r hreturns
    obtain ⟨reply, w', hhandle⟩ := exists_handle hreturns
    exact ⟨reply, w', h.answer hhandle⟩
  · rintro before after rfl
    obtain ⟨w', hbefore, hafter⟩ := runs_append_iff.mp h
    rw [List.filterMap_append] at hfresh
    exact ⟨w', hbefore, hafter, fun id trees =>
      hbefore.getElem?_eq_some_iff_live (List.nodup_append.mp hfresh).1⟩
  · rintro before x after rfl
    obtain ⟨w', hbefore, hrest⟩ := runs_append_iff.mp h
    obtain ⟨w'', hx, -⟩ := runs_cons_iff.mp hrest
    rw [List.append_cons, List.filterMap_append] at hfresh
    exact hbefore.dictated (List.nodup_append.mp hfresh).1 hx

/-- A handle that is taken and then released in vain, next to one that stays. -/
theorem dictated_after_second_release :
    ∃ (svc : Service Nat) (log : List Exchange) (w : Worker Nat),
      log.map Exchange.request = [.parseCode "a", .parseCode "b", .takeTree ⟨0⟩, .releaseTree ⟨0⟩,
        .getTreeCount] ∧
      Runs svc (.new 0) log w ∧ (log.filterMap Exchange.issued?).Nodup ∧
      (∀ trees, Live svc.parse 0 log ⟨1⟩ trees ↔ trees = [.atom ⟨[], "b", .normal⟩]) ∧
      (∀ trees, ¬Live svc.parse 0 log ⟨0⟩ trees) ∧
      Dictated (Live svc.parse 0 (log.take 3)) (.releaseTree ⟨0⟩) (.released false) ∧
      Dictated (Live svc.parse 0 (log.take 4)) .getTreeCount (.treeCount 1) := by
  let tree (code : String) : List ParseTree := [.atom ⟨[], code, .normal⟩]
  let svc : Service Nat :=
    ⟨fun n code => .returned (tree code) (n + 1), fun i => ⟨BitVec.ofNat 128 i⟩, Duration.ofMillis 1⟩
  let log : List Exchange := [⟨.parseCode "a", .parsed ⟨0⟩⟩, ⟨.parseCode "b", .parsed ⟨1⟩⟩,
    ⟨.takeTree ⟨0⟩, .tree (some (tree "a"))⟩, ⟨.releaseTree ⟨0⟩, .released false⟩,
    ⟨.getTreeCount, .treeCount 1⟩]
  let trees : Std.HashMap Handle (List ParseTree) :=
    (((∅ : Std.HashMap Handle (List ParseTree)).insert ⟨0⟩ (tree "a")).insert ⟨1⟩ (tree "b"))
  let w : Worker Nat := ⟨2, (trees.erase ⟨0⟩).erase ⟨0⟩, 2⟩
  have hfirst : trees[(⟨0⟩ : Handle)]? = some (tree "a") := by
    rw [Std.HashMap.getElem?_insert, Std.HashMap.getElem?_insert_self]
    rfl
  have hsecond : w.trees[(⟨1⟩ : Handle)]? = some (tree "b") := by
    simp [w, trees]
  have hsize : w.trees.size = 1 := by
    simp [w, trees, Std.HashMap.size_erase, Std.HashMap.size_insert]
  have hrun : Runs svc (.new 0) log w := by
    refine runs_cons_iff.mpr ⟨_, rfl, runs_cons_iff.mpr ⟨⟨2, trees, 2⟩, rfl, ?_⟩⟩
    refine runs_cons_iff.mpr ⟨⟨2, trees.erase ⟨0⟩, 2⟩, ?_, ?_⟩
    · rw [handle, hfirst]
      rfl
    refine runs_cons_iff.mpr ⟨w, ?_, runs_cons_iff.mpr ⟨w, ?_, .start⟩⟩
    · simp [handle, w, erase]
    · rw [handle, hsize]
  have hfresh : (log.filterMap Exchange.issued?).Nodup := by decide
  obtain ⟨-, htable, hreplies, -⟩ := hrun.dictated_by_history hfresh
  obtain ⟨w', hrun', -, hlive⟩ := htable log [] (List.append_nil log).symm
  obtain ⟨-, rfl⟩ := hrun.unique hrun' rfl
  refine ⟨svc, log, w, rfl, hrun, hfresh, fun trees => ?_, fun trees => ?_,
    hreplies (log.take 3) _ _ rfl, hreplies (log.take 4) _ _ rfl⟩
  · rw [← hlive, hsecond, Option.some_inj, eq_comm]
  · rw [← hlive]
    simp [w]

end Worker

end TwinForest
