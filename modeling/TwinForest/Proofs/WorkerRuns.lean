import Mathlib.Data.List.Induction
import Mathlib.Data.List.Nodup
import Std.Data.HashMap.Lemmas
import TwinForest.Service.Host

/-!
# Runs of a worker

A worker answers requests one after the other. A run is told by its log, which has every request with
its reply. Runs can be put together and taken apart, and the requests determine the rest. Along a run,
the state of the parser is what its calls make of it, handles come from the supply one after the other,
and every tree is kept under one of them.

## Main definitions

* `Exchange`: a request with its reply.
* `Worker.Runs`: the worker answers the requests of a log.
* `CodeParser.after`, `CodeParser.Crashes`: the state of a parser after some calls, and a crash in them.
* `Service.Fresh`: the first handles of the supply are different.

## Main results

* `Worker.handle_cases`: what a request does to a worker.
* `Worker.runs_append_iff`, `Worker.Runs.unique`: runs one after the other, and of equal requests.
* `Worker.Runs.state_eq`, `Worker.Runs.issued_eq`, `Worker.Runs.mem_supply`: the parser, the supply
  and the table along a run.
-/

namespace TwinForest

structure Exchange where
  request : Request
  reply : Reply

namespace Request

def code? : Request → Option String
  | parseCode code => some code
  | _ => none

def forgotten? : Request → Option Handle
  | takeTree id | releaseTree id => some id
  | _ => none

end Request

/-- The state of a parser after calls on some texts, if it returned from all of them. -/
def CodeParser.after {σ : Type u} (parse : CodeParser σ) : σ → List String → Option σ
  | state, [] => some state
  | state, code :: codes =>
    match parse state code with
    | .returned _ state => after parse state codes
    | _ => none

theorem CodeParser.after_append {σ : Type u} (parse : CodeParser σ) (state : σ)
    (codes codes' : List String) :
    parse.after state (codes ++ codes') =
      (parse.after state codes).bind fun state => parse.after state codes' := by
  induction codes generalizing state with
  | nil => rfl
  | cons code codes ih =>
    simp only [List.cons_append, after]
    split
    · exact ih _
    · rfl

/-- The parser crashes on one of some texts, after it returned from the calls on those before. -/
def CodeParser.Crashes {σ : Type u} (parse : CodeParser σ) : σ → List String → Prop
  | _, [] => False
  | state, code :: codes =>
    match parse state code with
    | .returned _ state => Crashes parse state codes
    | .unfinished => False
    | .crashed => True

theorem CodeParser.crashes_append_iff {σ : Type u} {parse : CodeParser σ} {state s : σ}
    {codes codes' : List String} (h : parse.after state codes = some s) :
    parse.Crashes state (codes ++ codes') ↔ parse.Crashes s codes' := by
  induction codes generalizing state with
  | nil =>
    obtain rfl := Option.some.inj h
    rfl
  | cons code codes ih =>
    rw [after] at h
    rw [List.cons_append, Crashes]
    cases hparse : parse state code with
    | returned trees state' =>
      rw [hparse] at h
      exact ih h
    | unfinished =>
      rw [hparse] at h
      cases h
    | crashed =>
      rw [hparse] at h
      cases h

/-- The first `count` handles of the supply are different. -/
def Service.Fresh {σ : Type u} (svc : Service σ) (count : Nat) : Prop :=
  ((List.range count).map svc.supply).Nodup

theorem Service.Fresh.ne {σ : Type u} {svc : Service σ} {count i j : Nat} (h : svc.Fresh count)
    (hij : i < j) (hj : j < count) : svc.supply i ≠ svc.supply j := by
  intro heq
  have hinj := List.inj_on_of_nodup_map h (List.mem_range.mpr (Nat.lt_trans hij hj))
    (List.mem_range.mpr hj)
  exact Nat.ne_of_lt hij (hinj heq)

namespace Worker

variable {σ : Type u} {svc : Service σ} {w w' w'' : Worker σ} {log log' : List Exchange}
  {r : Request} {reply : Reply}

/-! ## Single requests -/

/-- A parse that is answered has called the parser, and adds its trees under the next handle. -/
theorem of_handle_parseCode {code : String}
    (h : w.handle svc.parse svc.supply (.parseCode code) = .replied reply w') :
    ∃ trees state, svc.parse w.state code = .returned trees state ∧
      reply = .parsed (svc.supply w.issued) ∧
      w' = ⟨state, w.trees.insert (svc.supply w.issued) trees, w.issued + 1⟩ := by
  simp only [handle] at h
  split at h
  · rename_i trees state hparse
    cases h
    exact ⟨trees, state, hparse, rfl, rfl⟩
  · cases h
  · cases h

/-- A parse adds a tree under the next handle, some requests make the worker forget a handle, and
the others change nothing. -/
theorem handle_cases (h : w.handle svc.parse svc.supply r = .replied reply w') :
    (∃ code trees state, r = .parseCode code ∧ svc.parse w.state code = .returned trees state ∧
      reply = .parsed (svc.supply w.issued) ∧
      w' = ⟨state, w.trees.insert (svc.supply w.issued) trees, w.issued + 1⟩) ∨
    (r.code? = none ∧ ∃ id, r.forgotten? = some id ∧ w' = w.erase id) ∨
    (r.code? = none ∧ r.forgotten? = none ∧ w' = w) := by
  cases r with
  | parseCode code =>
    obtain ⟨trees, state, hparse, hreply, hw'⟩ := of_handle_parseCode h
    exact .inl ⟨code, trees, state, rfl, hparse, hreply, hw'⟩
  | takeTree id =>
    cases h
    exact .inr (.inl ⟨rfl, id, rfl, rfl⟩)
  | releaseTree id =>
    cases h
    exact .inr (.inl ⟨rfl, id, rfl, rfl⟩)
  | getParseString | getTreeString | getTree | getTreeCount =>
    cases h
    exact .inr (.inr ⟨rfl, rfl, rfl⟩)

/-- The worker crashes with its parser only. -/
theorem handle_crashed (h : w.handle svc.parse svc.supply r = .crashed) :
    ∃ code, r = .parseCode code ∧ svc.parse w.state code = .crashed := by
  cases r with
  | parseCode code =>
    simp only [handle] at h
    split at h
    · cases h
    · cases h
    · exact ⟨code, rfl, by assumption⟩
  | getParseString | getTreeString | getTree | takeTree | releaseTree | getTreeCount => cases h

/-- Only a parse can fail to be answered, and only when the parser does not return. -/
theorem exists_handle (hr : ∀ code, r = .parseCode code →
      ∃ trees state, svc.parse w.state code = .returned trees state) :
    ∃ reply w', w.handle svc.parse svc.supply r = .replied reply w' := by
  cases r with
  | parseCode code =>
    obtain ⟨trees, state, hparse⟩ := hr code rfl
    exact ⟨_, _, by rw [handle, hparse]⟩
  | getParseString | getTreeString | getTree | takeTree | releaseTree | getTreeCount =>
    exact ⟨_, _, rfl⟩

@[simp] theorem erase_state (w : Worker σ) (id : Handle) : (w.erase id).state = w.state := rfl

@[simp] theorem erase_issued (w : Worker σ) (id : Handle) : (w.erase id).issued = w.issued := rfl

@[simp] theorem erase_trees (w : Worker σ) (id : Handle) : (w.erase id).trees = w.trees.erase id :=
  rfl

/-! ## Runs -/

inductive Runs (svc : Service σ) (w : Worker σ) : List Exchange → Worker σ → Prop where
  | start : Runs svc w [] w
  | answer {log : List Exchange} {w' w'' : Worker σ} {r : Request} {reply : Reply} :
      Runs svc w log w' → w'.handle svc.parse svc.supply r = .replied reply w'' →
      Runs svc w (log ++ [⟨r, reply⟩]) w''

theorem Runs.append (h : Runs svc w log w') (h' : Runs svc w' log' w'') :
    Runs svc w (log ++ log') w'' := by
  induction h' with
  | start => rwa [List.append_nil]
  | answer _ hr ih =>
    rw [← List.append_assoc]
    exact ih.answer hr

theorem runs_nil_iff : Runs svc w [] w' ↔ w' = w := by
  constructor
  · intro h
    generalize hlog : ([] : List Exchange) = log at h
    cases h with
    | start => rfl
    | answer => simp at hlog
  · rintro rfl
    exact .start

theorem runs_concat_iff {x : Exchange} :
    Runs svc w (log ++ [x]) w'' ↔ ∃ w', Runs svc w log w' ∧
      w'.handle svc.parse svc.supply x.request = .replied x.reply w'' := by
  constructor
  · intro h
    generalize hlog : log ++ [x] = log' at h
    cases h with
    | start => simp at hlog
    | answer hrun hr =>
      obtain ⟨rfl, hx⟩ := List.append_inj' hlog rfl
      cases hx
      exact ⟨_, hrun, hr⟩
  · rintro ⟨w', hrun, hr⟩
    exact hrun.answer hr

/-- A run goes on from where its first part ends. -/
theorem runs_append_iff :
    Runs svc w (log ++ log') w'' ↔ ∃ w', Runs svc w log w' ∧ Runs svc w' log' w'' := by
  constructor
  · intro h
    induction log' using List.reverseRecOn generalizing w'' with
    | nil => exact ⟨w'', by rwa [List.append_nil] at h, .start⟩
    | append_singleton log' x ih =>
      rw [← List.append_assoc] at h
      obtain ⟨v, hrun, hx⟩ := runs_concat_iff.mp h
      obtain ⟨w', hfirst, hsecond⟩ := ih hrun
      exact ⟨w', hfirst, hsecond.answer hx⟩
  · rintro ⟨w', h, h'⟩
    exact h.append h'

theorem runs_cons_iff {x : Exchange} :
    Runs svc w (x :: log) w'' ↔
      ∃ w', w.handle svc.parse svc.supply x.request = .replied x.reply w' ∧ Runs svc w' log w'' := by
  have hone : ∀ {v}, Runs svc w [x] v ↔
      w.handle svc.parse svc.supply x.request = .replied x.reply v := by
    intro v
    rw [← List.nil_append [x], runs_concat_iff]
    simp [runs_nil_iff]
  rw [← List.singleton_append, runs_append_iff]
  simp only [hone]

/-- The requests determine their replies and where the run ends. -/
theorem Runs.unique (h : Runs svc w log w') (h' : Runs svc w log' w'')
    (hrequests : log.map Exchange.request = log'.map Exchange.request) : log = log' ∧ w' = w'' := by
  induction log generalizing w log' with
  | nil =>
    obtain rfl := List.map_eq_nil_iff.mp hrequests.symm
    exact ⟨rfl, (runs_nil_iff.mp h).trans (runs_nil_iff.mp h').symm⟩
  | cons x log ih =>
    obtain ⟨r, reply⟩ := x
    obtain ⟨⟨_, reply'⟩, log', rfl, rfl, hrest⟩ := List.map_eq_cons_iff.mp hrequests.symm
    obtain ⟨v, hx, hrun⟩ := runs_cons_iff.mp h
    obtain ⟨v', hx', hrun'⟩ := runs_cons_iff.mp h'
    obtain ⟨rfl, rfl⟩ : reply = reply' ∧ v = v' := by
      rw [hx] at hx'
      cases hx'
      exact ⟨rfl, rfl⟩
    obtain ⟨rfl, rfl⟩ := ih hrun hrun' hrest.symm
    exact ⟨rfl, rfl⟩

/-! ## The parser, the supply and the table -/

/-- The parser has been called on the texts of the log, and on nothing else. -/
theorem Runs.state_eq (h : Runs svc w log w') :
    svc.parse.after w.state (log.filterMap fun x => x.request.code?) = some w'.state := by
  induction h with
  | start => rfl
  | answer _ hr ih =>
    rw [List.filterMap_append, CodeParser.after_append, ih]
    rcases handle_cases hr with ⟨code, trees, state, rfl, hparse, -, rfl⟩ | ⟨hcode, id, -, rfl⟩ |
      ⟨hcode, -, rfl⟩
    · simp [Request.code?, CodeParser.after, hparse]
    · simp [hcode, CodeParser.after]
    · simp [hcode, CodeParser.after]

/-- Every text takes a handle from the supply. -/
theorem Runs.issued_eq (h : Runs svc w log w') :
    w'.issued = w.issued + (log.filterMap fun x => x.request.code?).length := by
  induction h with
  | start => rfl
  | answer _ hr ih =>
    rw [List.filterMap_append, List.length_append]
    rcases handle_cases hr with ⟨code, trees, state, rfl, -, -, rfl⟩ | ⟨hcode, id, -, rfl⟩ |
      ⟨hcode, -, rfl⟩
    · simp [Request.code?, ih]
      omega
    · simp [hcode, ih]
    · simp [hcode, ih]

/-- A run that has come to a point goes on from there. -/
theorem Runs.resume (h : Runs svc w log w') (h' : Runs svc w (log ++ log') w'') :
    Runs svc w' log' w'' := by
  obtain ⟨v, hlog, hrest⟩ := runs_append_iff.mp h'
  obtain ⟨-, rfl⟩ := h.unique hlog rfl
  exact hrest

/-- Requests are answered as long as the parser returns from the calls on their texts. -/
theorem exists_runs {requests : List Request} {state : σ}
    (h : svc.parse.after w.state (requests.filterMap Request.code?) = some state) :
    ∃ log w', Runs svc w log w' ∧ log.map Exchange.request = requests := by
  induction requests generalizing w with
  | nil => exact ⟨[], w, .start, rfl⟩
  | cons r requests ih =>
    have hreturns : ∀ code, r = .parseCode code →
        ∃ trees s, svc.parse w.state code = .returned trees s := by
      rintro code rfl
      simp only [List.filterMap_cons, Request.code?, CodeParser.after] at h
      split at h
      · exact ⟨_, _, by assumption⟩
      · cases h
    obtain ⟨reply, v, hhandle⟩ := exists_handle hreturns
    have hone : Runs svc w [⟨r, reply⟩] v := Runs.start.answer hhandle
    have hstate : svc.parse.after w.state ([r].filterMap Request.code?) = some v.state := by
      simpa [List.filterMap_cons] using hone.state_eq
    rw [← List.singleton_append, List.filterMap_append, CodeParser.after_append, hstate] at h
    obtain ⟨log, w', hrun, hlog⟩ := ih h
    exact ⟨⟨r, reply⟩ :: log, w', hone.append hrun, by rw [List.map_cons, hlog]⟩

/-- A worker keeps trees under handles that it has handed out. -/
theorem Runs.mem_supply {state : σ} (h : Runs svc (.new state) log w) {id : Handle}
    (hid : id ∈ w.trees) : ∃ i < w.issued, svc.supply i = id := by
  induction h with
  | start => simp [new] at hid
  | answer _ hr ih =>
    rcases handle_cases hr with ⟨code, trees, state, rfl, -, -, rfl⟩ | ⟨-, id', -, rfl⟩ |
      ⟨-, -, rfl⟩
    · rcases Std.HashMap.mem_insert.mp hid with heq | hid
      · exact ⟨_, Nat.lt_succ_self _, by simpa using heq⟩
      · obtain ⟨i, hi, rfl⟩ := ih hid
        exact ⟨i, Nat.lt_succ_of_lt hi, rfl⟩
    · exact ih (Std.HashMap.mem_of_mem_erase hid)
    · exact ih hid

end Worker

end TwinForest
