import TwinForest.Cli.Run
import TwinForest.Proofs.Calls
import TwinForest.Proofs.Indexing

/-!
# Pairs that are built by a parse service

A caller who wants a pair of two texts sends both for parsing, and takes the two trees when they are
there. Other requests may wait before them. The caller gets the pair that is built from the two trees,
and the worker has in its table what the requests before have left there.

## Main definitions

* `Pair.BuiltFrom`: a pair is built from the trees of two files with one builder.
* `Host.handles`: how many handles a host will have given when nothing waits any more.
* `Client.PairBuilt`: what a caller gets for two texts, and what is left of it at the worker.

## Main results

* `Worker.Runs.two_parses`: what two parses do to a worker.
* `Client.takeParsed_cases`, `Client.takeParsed_ok`: what comes of taking a tree.
* `Client.buildPair_cases`, `Client.buildPair_ok`: what comes of asking for a pair.
* `Client.buildPair_delivers`: a caller gets the pair, unless the call is interrupted.
-/

namespace TwinForest

/-- A pair is built from the trees of two files, the first before the second, with one builder that
has nothing at first. -/
def Pair.BuiltFrom (p : Pair) (left right : List ParseTree) : Prop :=
  ∃ lhs rhs b b', Builder.empty.buildAll left = (.ok lhs, b) ∧
    b.buildAll right = (.ok rhs, b') ∧ b'.nodes.index lhs rhs = .ok p

theorem Pair.exists_builtFrom (left right : List ParseTree) :
    ∃ p, Pair.ofTrees left right = .ok p ∧ p.BuiltFrom left right := by
  obtain ⟨lhs, rhs, b, b', p, hleft, hright, hindex⟩ :=
    Builder.Reachable.empty.sound.exists_index left right
  refine ⟨p, ?_, lhs, rhs, b, b', hleft, hright, hindex⟩
  simp only [Pair.ofTrees, hleft, hright]
  exact hindex

/-- The command for two files shows the pair of their trees. -/
theorem Cli.stdout_execute {read : String → Option String} {one two : String} (verbose : Bool)
    {left right : List ParseTree} {p : Pair} (hone : readTrees read one = .ok left)
    (htwo : readTrees read two = .ok right) (hp : Pair.ofTrees left right = .ok p) :
    (execute read ⟨verbose, .dump one two⟩).map Outcome.stdout = .ok p.dump := by
  have hpair : ofFault (Pair.ofTrees left right) = .ok p := by
    rw [hp]
    rfl
  simp only [execute, hone, htwo]
  change Except.map Outcome.stdout (ofFault (Pair.ofTrees left right) >>= _) = _
  rw [hpair]
  rfl

/-! ## Two parses at the worker -/

namespace Worker

variable {σ : Type} {svc : Service σ} {state : σ} {w w₂ : Worker σ} {log : List Exchange}
  {before after : String} {first second : Handle}

theorem Runs.exists_parsed {w' : Worker σ} (h : Runs svc w log w') {code : String} {reply : Reply}
    (hx : ⟨.parseCode code, reply⟩ ∈ log) : ∃ id, reply = .parsed id := by
  obtain ⟨log₁, log₂, rfl⟩ := List.append_of_mem hx
  obtain ⟨v, -, hrest⟩ := runs_append_iff.mp h
  obtain ⟨v', hhandle, -⟩ := runs_cons_iff.mp hrest
  obtain ⟨-, -, -, hreply, -⟩ := of_handle_parseCode hhandle
  exact ⟨_, hreply⟩

theorem Runs.issued_of_requests {w' : Worker σ} {requests : List Request} (h : Runs svc w log w')
    (hrequests : log.map Exchange.request = requests) :
    w'.issued = w.issued + (requests.filterMap Request.code?).length := by
  rw [h.issued_eq, ← hrequests, List.filterMap_map]
  rfl

/-- Two parses call the parser on the two texts and take two handles from the supply. -/
theorem Runs.two_parses (h : Runs svc w [⟨.parseCode before, .parsed first⟩,
      ⟨.parseCode after, .parsed second⟩] w₂) :
    ∃ left s right s', svc.parse w.state before = .returned left s ∧
      svc.parse s after = .returned right s' ∧ first = svc.supply w.issued ∧
      second = svc.supply (w.issued + 1) ∧
      w₂ = ⟨s', (w.trees.insert first left).insert second right, w.issued + 2⟩ := by
  obtain ⟨v, hbefore, hrest⟩ := runs_cons_iff.mp h
  obtain ⟨v', hafter, hnil⟩ := runs_cons_iff.mp hrest
  obtain rfl := runs_nil_iff.mp hnil
  obtain ⟨left, s, hleft, hfirst, rfl⟩ := of_handle_parseCode hbefore
  obtain ⟨right, s', hright, hsecond, rfl⟩ := of_handle_parseCode hafter
  cases hfirst
  cases hsecond
  exact ⟨left, s, right, s', hleft, hright, rfl, rfl, rfl⟩

/-- In a log that ends with two parses, the requests before them are answered first. -/
theorem Runs.split_parses {w' : Worker σ} {waiting : List Request} (h : Runs svc w log w')
    (hrequests : log.map Exchange.request = waiting ++ [.parseCode before, .parseCode after]) :
    ∃ log' first second w₁,
      log = log' ++ [⟨.parseCode before, .parsed first⟩, ⟨.parseCode after, .parsed second⟩] ∧
      log'.map Exchange.request = waiting ∧ Runs svc w log' w₁ ∧
      Runs svc w₁ [⟨.parseCode before, .parsed first⟩, ⟨.parseCode after, .parsed second⟩] w' := by
  obtain ⟨log', last, rfl, hlog', hlast⟩ := List.map_eq_append_iff.mp hrequests
  obtain ⟨⟨_, reply⟩, rest, rfl, rfl, hrest⟩ := List.map_eq_cons_iff.mp hlast
  obtain ⟨⟨_, reply'⟩, rfl, rfl⟩ := List.map_eq_singleton_iff.mp hrest
  obtain ⟨first, rfl⟩ := h.exists_parsed (List.mem_append_right log' List.mem_cons_self)
  obtain ⟨second, rfl⟩ := h.exists_parsed
    (List.mem_append_right log' (List.mem_cons_of_mem _ List.mem_cons_self))
  obtain ⟨w₁, hrun, hparses⟩ := runs_append_iff.mp h
  exact ⟨log', first, second, w₁, rfl, hlog', hrun, hparses⟩

/-- The next handles of the supply are not in use. -/
theorem Runs.not_mem_supply (h : Runs svc (.new state) log w) {count i : Nat}
    (hfresh : svc.Fresh count) (hi : w.issued ≤ i) (hcount : i < count) :
    svc.supply i ∉ w.trees := by
  intro hmem
  obtain ⟨j, hj, heq⟩ := h.mem_supply hmem
  exact hfresh.ne (Nat.lt_of_lt_of_le hj hi) hcount heq

end Worker

/-- Two new items of a table are found, each also without the other, and without both the table is as
it was. -/
theorem insert_two_erase {trees : Std.HashMap Handle (List ParseTree)} {first second : Handle}
    (left right : List ParseTree) (hne : first ≠ second) (hfirst : first ∉ trees)
    (hsecond : second ∉ trees) :
    ((trees.insert first left).insert second right)[first]? = some left ∧
    (((trees.insert first left).insert second right).erase first)[second]? = some right ∧
    ((((trees.insert first left).insert second right).erase first).erase second).Equiv trees := by
  have hnone : trees[first]? = none := Std.HashMap.getElem?_eq_none hfirst
  have hnone' : trees[second]? = none := Std.HashMap.getElem?_eq_none hsecond
  refine ⟨?_, ?_, Std.HashMap.Equiv.of_forall_getElem?_eq fun id => ?_⟩
  · rw [Std.HashMap.getElem?_insert, if_neg (by simpa using hne.symm),
      Std.HashMap.getElem?_insert_self]
  · rw [Std.HashMap.getElem?_erase, if_neg (by simpa using hne), Std.HashMap.getElem?_insert_self]
  · simp only [Std.HashMap.getElem?_erase, Std.HashMap.getElem?_insert, beq_iff_eq]
    by_cases hid : second = id
    · rw [if_pos hid, ← hid, hnone']
    · by_cases hid' : first = id
      · rw [if_neg hid, if_pos hid', ← hid', hnone]
      · rw [if_neg hid, if_neg hid', if_neg hid, if_neg hid']

/-- The trees of two parses can be taken one after the other, and then nothing of them is left. -/
theorem Worker.Runs.two_taken {σ : Type} {svc : Service σ} {state : σ} {w w₂ : Worker σ}
    {log : List Exchange} {before after : String} {first second : Handle}
    (h : Runs svc (.new state) log w) (hfresh : svc.Fresh (w.issued + 2))
    (h₂ : Runs svc w [⟨.parseCode before, .parsed first⟩, ⟨.parseCode after, .parsed second⟩] w₂) :
    ∃ left s right, svc.parse w.state before = .returned left s ∧
      svc.parse s after = .returned right w₂.state ∧ w₂.trees[first]? = some left ∧
      (w₂.erase first).trees[second]? = some right ∧
      ((w₂.erase first).erase second).trees.Equiv w.trees := by
  obtain ⟨left, s, right, s', hleft, hright, rfl, rfl, rfl⟩ := h₂.two_parses
  exact ⟨left, s, right, hleft, hright, insert_two_erase left right
    (hfresh.ne (Nat.lt_succ_self _) (Nat.lt_succ_self _))
    (h.not_mem_supply hfresh (Nat.le_refl _) (by omega))
    (h.not_mem_supply hfresh (Nat.le_succ _) (Nat.lt_succ_self _))⟩

def Host.texts {σ : Type} (h : Host σ) : List String :=
  (h.queue.map Prod.snd).filterMap Request.code?

/-- How many handles the worker will have handed out when nothing waits any more. -/
def Host.handles {σ : Type} (h : Host σ) : Nat :=
  h.worker.elim 0 Worker.issued + h.texts.length

namespace Client

variable {σ : Type} {svc : Service σ} {state : σ} {h h' : Host σ} {w w' w₁ : Worker σ}
  {log log' : List Exchange} {waiting : List Request} {t : Ticket} {code : String} {id : Handle}

/-! ## Taking a tree -/

theorem Interrupted.of_takeTree {requests : List Request} {e : ServiceError}
    (he : Interrupted svc state (requests ++ [.takeTree id]) e h) :
    Interrupted svc state requests e h := by
  have htexts : (requests ++ [Request.takeTree id]).filterMap Request.code? =
      requests.filterMap Request.code? := by
    rw [List.filterMap_append]
    exact List.append_nil _
  unfold Interrupted Host.Crashes at he ⊢
  rwa [htexts] at he

theorem takeTree_cases (hr : h.Running svc state log waiting w) (id : Handle) :
    (∃ e h', takeTree svc id h = (.error e, h') ∧
      Interrupted svc state (log.map Exchange.request ++ waiting) e h') ∨
    ∃ log' found w' h', takeTree svc id h = (.ok found, h') ∧
      log'.map Exchange.request = waiting ∧
      h'.Running svc state (log ++ log' ++ [⟨.takeTree id, .tree found⟩]) [] w' := by
  rcases request_cases hr (.takeTree id) with ⟨e, h', hrequest, he⟩ |
    ⟨log', reply, w', h', hrequest, hlog', hr'⟩
  · rw [← List.append_assoc] at he
    exact .inl ⟨e, h', bind_error hrequest, he.of_takeTree⟩
  · obtain ⟨v, -, hhandle⟩ := Worker.runs_concat_iff.mp hr'.run
    cases hhandle
    exact .inr ⟨log', _, _, h', bind_ok hrequest, hlog', hr'⟩

/-- The reply to a request that has been sent is of its kind. -/
theorem exchange_at (hp : Host.Proceeds svc state log waiting log' h')
    (ht : (log.map Exchange.request ++ waiting)[t]? = some (.parseCode code)) {x : Exchange}
    (hx : (log ++ log')[t]? = some x) : ∃ id, x = ⟨.parseCode code, .parsed id⟩ := by
  obtain ⟨waiting', rfl, hlater⟩ := hp
  obtain ⟨v, hrun⟩ : ∃ v, Worker.Runs svc (.new state) (log ++ log') v := by
    rcases hlater with ⟨w', hr'⟩ | ⟨-, hs, -⟩
    · exact ⟨w', hr'.run⟩
    · exact hs.run
  obtain ⟨r, reply⟩ := x
  have hlt : t < ((log ++ log').map Exchange.request).length := by
    rw [List.length_map]
    exact (List.getElem?_eq_some_iff.mp hx).1
  rw [← List.append_assoc, ← List.map_append, List.getElem?_append_left hlt, List.getElem?_map, hx]
    at ht
  obtain rfl : r = .parseCode code := Option.some.inj ht
  obtain ⟨id, rfl⟩ := hrun.exists_parsed (List.mem_of_getElem? hx)
  exact ⟨id, rfl⟩

/-- A caller who waits for a parse and takes its tree is interrupted, or the worker answers all that
waited, the parse among it, and then the caller. -/
theorem takeParsed_cases (hr : h.Running svc state log waiting w)
    (ht : (log.map Exchange.request ++ waiting)[t]? = some (.parseCode code)) :
    (∃ e h', takeParsed svc t h = (.error e, h') ∧
      Interrupted svc state (log.map Exchange.request ++ waiting) e h') ∨
    ∃ log' id found w' h', takeParsed svc t h = known id found h' ∧
      log'.map Exchange.request = waiting ∧
      (log ++ log')[t]? = some ⟨.parseCode code, .parsed id⟩ ∧
      h'.Running svc state (log ++ log' ++ [⟨.takeTree id, .tree found⟩]) [] w' := by
  obtain ⟨log₁, h₁, hp, ⟨x, hx, hwait⟩ | ⟨e, hwait, he⟩⟩ := wait_cases hr t
  · obtain ⟨id, rfl⟩ := exchange_at hp ht hx
    have htake : takeParsed svc t h = (takeTree svc id >>= known id) h₁ := bind_ok hwait
    rw [htake]
    obtain ⟨waiting₁, rfl, ⟨w₁, hr₁⟩ | ⟨-, hs, hcrash⟩⟩ := hp
    · rcases takeTree_cases hr₁ id with ⟨e, h', htree, he⟩ | ⟨log₂, found, w', h', htree, hlog₂, hr'⟩
      · rw [List.map_append, List.append_assoc] at he
        exact .inl ⟨e, h', bind_error htree, he⟩
      · refine .inr ⟨log₁ ++ log₂, id, found, w', h', bind_ok htree, ?_, ?_, ?_⟩
        · rw [List.map_append, hlog₂]
        · rw [← List.append_assoc,
            List.getElem?_append_left (List.getElem?_eq_some_iff.mp hx).1, hx]
        · rwa [← List.append_assoc]
    · have htree : takeTree svc id h₁ = (.error .disconnected, h₁) :=
        bind_error (request_stopped hs (.takeTree id))
      exact .inl ⟨.disconnected, h₁, bind_error htree, .inr ⟨rfl, hs.worker, hcrash⟩⟩
  · exact .inl ⟨e, h₁, bind_error hwait, he⟩

/-- A caller gets the tree of a parse, when the parser returns from all calls that wait and the worker
has the time to make as many steps. -/
theorem takeParsed_ok (hr : h.Running svc state log waiting w) {trees : List ParseTree}
    (hrun : Worker.Runs svc w log' w₁) (hrequests : log'.map Exchange.request = waiting)
    (ht : (log ++ log')[t]? = some ⟨.parseCode code, .parsed id⟩)
    (htrees : w₁.trees[id]? = some trees)
    (hpace : ∀ steps ∈ h.pace, waiting.length ≤ steps ∧ 1 ≤ steps) :
    ∃ h', takeParsed svc t h = (.ok trees, h') ∧
      h'.Running svc state (log ++ log' ++ [⟨.takeTree id, .tree (some trees)⟩]) [] (w₁.erase id) ∧
      h'.pace ⊆ h.pace := by
  obtain ⟨h₁, hwait, hr₁, hpace₁⟩ :=
    hr.wait_ok hrun hrequests (fun steps hmem => (hpace steps hmem).1) t
  have hparsed : wait svc t h = (.ok (.parsed id), h₁) := by
    change h.wait svc t = _
    rw [hwait, Host.replyAt, ht]
  have hhandle : w₁.handle svc.parse svc.supply (.takeTree id) =
      .replied (.tree (some trees)) (w₁.erase id) := by
    rw [Worker.handle, htrees]
  obtain ⟨h', hrequest, hr', hpace'⟩ := request_ok hr₁ .start rfl hhandle
    fun steps hmem => (hpace steps (hpace₁ hmem)).2
  have htree : takeTree svc id h₁ = (.ok (some trees), h') := bind_ok hrequest
  have htake : takeParsed svc t h = (takeTree svc id >>= known id) h₁ := bind_ok hparsed
  refine ⟨h', ?_, by simpa using hr', fun steps hmem => hpace₁ (hpace' hmem)⟩
  rw [htake, bind_ok htree]
  rfl

/-! ## Asking for a pair -/

variable {before after : String}

/-- Both texts are sent, before either tree is taken. -/
theorem buildPair_sent (hr : h.Running svc state log waiting w) (before after : String) :
    ∃ h', h'.Running svc state log (waiting ++ [.parseCode before, .parseCode after]) w ∧
      h'.pace = h.pace ∧
      buildPair svc before after h = (do
        let left ← takeParsed svc (log.length + waiting.length)
        let right ← takeParsed svc (log.length + waiting.length + 1)
        return Pair.ofTrees left right : Client σ (Except Fault Pair)) h' := by
  obtain ⟨h₁, hfirst, hr₁, hpace₁⟩ := send_running hr (.parseCode before)
  obtain ⟨h₂, hsecond, hr₂, hpace₂⟩ := send_running hr₁ (.parseCode after)
  rw [List.length_append, List.length_singleton, ← Nat.add_assoc] at hsecond
  refine ⟨h₂, by simpa using hr₂, hpace₂.trans hpace₁, ?_⟩
  exact (bind_ok hfirst).trans (bind_ok hsecond)

/-- The first tree is taken when both texts have been parsed. -/
theorem takeFirst_cases
    (hr : h.Running svc state log (waiting ++ [.parseCode before, .parseCode after]) w)
    (hfresh : svc.Fresh (w.issued + (waiting.filterMap Request.code?).length + 2)) :
    (∃ e h', takeParsed svc (log.length + waiting.length) h = (.error e, h') ∧
      Interrupted svc state
        (log.map Exchange.request ++ (waiting ++ [.parseCode before, .parseCode after])) e h') ∨
    ∃ log' w₁ left s right first second, ∃ (w₂ : Worker σ) (h' : Host σ),
      Worker.Runs svc w log' w₁ ∧
      log'.map Exchange.request = waiting ∧ svc.parse w₁.state before = .returned left s ∧
      svc.parse s after = .returned right w₂.state ∧
      (w₂.erase first).trees[second]? = some right ∧
      ((w₂.erase first).erase second).trees.Equiv w₁.trees ∧
      takeParsed svc (log.length + waiting.length) h = (.ok left, h') ∧
      h'.Running svc state (log ++ (log' ++ ⟨.parseCode before, .parsed first⟩ ::
        [⟨.parseCode after, .parsed second⟩, ⟨.takeTree first, .tree (some left)⟩])) []
        (w₂.erase first) := by
  have ht : (log.map Exchange.request ++ (waiting ++ [.parseCode before, .parseCode after]))[
      log.length + waiting.length]? = some (.parseCode before) := by
    simp
  rcases takeParsed_cases hr ht with hinterrupted |
    ⟨log₁, id, found, w₃, h', htake, hrequests, hplace, hr'⟩
  · exact .inl hinterrupted
  · obtain ⟨w₂, hlog₁, hhandle⟩ := Worker.runs_concat_iff.mp hr'.run
    obtain ⟨log', first, second, w₁, rfl, hlog', hrun, hparses⟩ :=
      (hr.run.resume hlog₁).split_parses hrequests
    obtain rfl : id = first := by
      simpa [← hlog', eq_comm] using hplace
    rw [← hrun.issued_of_requests hlog'] at hfresh
    obtain ⟨left, s, right, hleft, hright, hfirst, hsecond, htable⟩ :=
      (hr.run.append hrun).two_taken hfresh hparses
    cases hhandle
    rw [hfirst] at htake hr'
    refine .inr ⟨log', w₁, left, s, right, id, second, w₂, h', hrun, hlog', hleft, hright, hsecond,
      htable, htake, ?_⟩
    simpa using hr'

/-- Asking for a pair is interrupted, or the worker answers what waited before, calls the parser on both
texts and hands out both trees. -/
theorem buildPair_cases (hr : h.Running svc state log waiting w)
    (hfresh : svc.Fresh (w.issued + (waiting.filterMap Request.code?).length + 2))
    (before after : String) :
    (∃ e h', buildPair svc before after h = (.error e, h') ∧ Interrupted svc state
      (log.map Exchange.request ++ (waiting ++ [.parseCode before, .parseCode after])) e h') ∨
    ∃ log' w₁ left s right, ∃ (w' : Worker σ) (h' : Host σ), Worker.Runs svc w log' w₁ ∧
      log'.map Exchange.request = waiting ∧ svc.parse w₁.state before = .returned left s ∧
      svc.parse s after = .returned right w'.state ∧ w'.trees.Equiv w₁.trees ∧
      h'.worker = some w' ∧
      buildPair svc before after h = (.ok (Pair.ofTrees left right), h') := by
  obtain ⟨h₁, hr₁, -, hbuild⟩ := buildPair_sent hr before after
  rw [hbuild]
  rcases takeFirst_cases hr₁ hfresh with ⟨e, h', htake, he⟩ |
    ⟨log', w₁, left, s, right, first, second, w₂, h₂, hrun, hlog', hleft, hright, hsecond, htable,
      htake, hr₂⟩
  · exact .inl ⟨e, h', bind_error htake, he⟩
  rw [bind_ok htake]
  generalize hlog₂ : log ++ (log' ++ ⟨.parseCode before, .parsed first⟩ ::
    [⟨.parseCode after, .parsed second⟩, ⟨.takeTree first, .tree (some left)⟩]) = log₂ at hr₂
  have hplace : log₂[log.length + waiting.length + 1]? =
      some ⟨.parseCode after, .parsed second⟩ := by
    simp [← hlog₂, ← hlog', Nat.add_assoc]
  have hrequests : log₂.map Exchange.request = log.map Exchange.request ++
      (waiting ++ [.parseCode before, .parseCode after]) ++ [.takeTree first] := by
    simp [← hlog₂, hlog']
  have ht : (log₂.map Exchange.request ++ [])[log.length + waiting.length + 1]? =
      some (.parseCode after) := by
    rw [List.append_nil, List.getElem?_map, hplace]
    rfl
  rcases takeParsed_cases hr₂ ht with ⟨e, h', htake', he⟩ |
    ⟨log₃, id, found, w', h', htake', hlog₃, hplace', hr'⟩
  · rw [List.append_nil, hrequests] at he
    exact .inl ⟨e, h', bind_error htake', he.of_takeTree⟩
  · obtain rfl := List.map_eq_nil_iff.mp hlog₃
    rw [List.append_nil] at hplace' hr'
    obtain rfl : id = second := by
      rw [hplace] at hplace'
      cases hplace'
      rfl
    obtain ⟨v, hv, hhandle⟩ := Worker.runs_concat_iff.mp hr'.run
    obtain ⟨-, rfl⟩ := hr₂.run.unique hv rfl
    cases hhandle
    rw [hsecond] at htake'
    refine .inr ⟨log', w₁, left, s, right, (w₂.erase first).erase id, h', hrun, hlog', hleft, hright,
      htable, hr'.worker, ?_⟩
    exact bind_ok htake'

/-- A caller gets a pair, when the parser returns from all calls that wait and from those on both texts,
and the worker has the time to make as many steps. -/
theorem buildPair_ok (hr : h.Running svc state log waiting w)
    (hfresh : svc.Fresh (w.issued + (waiting.filterMap Request.code?).length + 2)) {s : σ}
    (hreturns : svc.parse.after w.state (waiting.filterMap Request.code? ++ [before, after]) = some s)
    (hpace : ∀ steps ∈ h.pace, waiting.length + 2 ≤ steps) :
    ∃ left right h', buildPair svc before after h = (.ok (Pair.ofTrees left right), h') := by
  obtain ⟨h₁, hr₁, hpace₁, hbuild⟩ := buildPair_sent hr before after
  have htexts : svc.parse.after w.state ((waiting ++ [Request.parseCode before,
      .parseCode after]).filterMap Request.code?) = some s := by
    rw [List.filterMap_append]
    exact hreturns
  obtain ⟨log₁, w₂, hrun, hrequests⟩ := Worker.exists_runs htexts
  obtain ⟨log', first, second, w₁, rfl, hlog', hrun', hparses⟩ := hrun.split_parses hrequests
  rw [← hrun'.issued_of_requests hlog'] at hfresh
  obtain ⟨left, s₁, right, -, -, hfirst, hsecond, -⟩ :=
    (hr.run.append hrun').two_taken hfresh hparses
  have hsteps : ∀ steps ∈ h₁.pace,
      (waiting ++ [Request.parseCode before, .parseCode after]).length ≤ steps ∧ 1 ≤ steps := by
    intro steps hmem
    rw [hpace₁] at hmem
    have hle := hpace steps hmem
    simp only [List.length_append, List.length_cons, List.length_nil]
    omega
  have hplace : (log ++ (log' ++ [⟨.parseCode before, .parsed first⟩,
      ⟨.parseCode after, .parsed second⟩]))[log.length + waiting.length]? =
      some ⟨.parseCode before, .parsed first⟩ := by
    simp [← hlog']
  obtain ⟨h₂, htake, hr₂, hpace₂⟩ := takeParsed_ok hr₁ hrun hrequests hplace hfirst hsteps
  have hplace' : (log ++ (log' ++ [⟨.parseCode before, .parsed first⟩,
      ⟨.parseCode after, .parsed second⟩]) ++ [⟨.takeTree first, .tree (some left)⟩] ++ [])[
        log.length + waiting.length + 1]? = some ⟨.parseCode after, .parsed second⟩ := by
    simp [← hlog', Nat.add_assoc]
  obtain ⟨h₃, htake', -, -⟩ := takeParsed_ok hr₂ .start rfl hplace' hsecond
    fun steps hmem => ⟨Nat.zero_le _, (hsteps steps (hpace₂ hmem)).2⟩
  refine ⟨left, right, h₃, ?_⟩
  rw [hbuild, bind_ok htake, bind_ok htake']
  rfl

/-! ## Any host -/

/-- What a caller gets for two texts, and what is left of it. When all that waited has been answered, the
parser is called on the one text and then on the other and on nothing else. The pair is built from the
trees that it returned, and is the one that the command for two files shows. The table of the worker is
what it was before the two calls. -/
def PairBuilt (svc : Service σ) (h : Host σ) (before after : String) (p : Pair) (h' : Host σ) : Prop :=
  ∃ left s right, ∃ w₁ w' : Worker σ,
    (h.settle svc).worker = some w₁ ∧ (h.settle svc).queue = [] ∧ h'.worker = some w' ∧
    svc.parse w₁.state before = .returned left s ∧
    svc.parse s after = .returned right w'.state ∧
    p.BuiltFrom left right ∧
    (∀ read one two verbose, Cli.readTrees read one = .ok left → Cli.readTrees read two = .ok right →
      (Cli.execute read ⟨verbose, .dump one two⟩).map Cli.Outcome.stdout = .ok p.dump) ∧
    w'.trees.Equiv w₁.trees

theorem pairBuilt_of_running (hr : h.Running svc state log waiting w)
    (hfresh : svc.Fresh (w.issued + (waiting.filterMap Request.code?).length + 2)) {p : Pair}
    (hbuild : buildPair svc before after h = (.ok (.ok p), h')) :
    PairBuilt svc h before after p h' := by
  rcases buildPair_cases hr hfresh before after with ⟨e, h'', herror, -⟩ |
    ⟨log', w₁, left, s, right, w', h'', hrun, hlog', hleft, hright, htable, hworker, hok⟩
  · rw [hbuild] at herror
    cases herror
  · have hsettled : (h.settle svc).Running svc state (log ++ log') [] w₁ :=
      hr.advance_all hrun hlog' (by simp [hr.queue])
    rw [hbuild] at hok
    injection hok with hresult hhost
    injection hresult with hpair
    subst hhost
    obtain ⟨p', hp', hbuilt⟩ := Pair.exists_builtFrom left right
    obtain rfl : p = p' := Except.ok.inj (hpair.trans hp')
    exact ⟨left, s, right, w₁, w', hsettled.worker, hsettled.queue, hworker, hleft, hright, hbuilt,
      fun read one two verbose hone htwo => Cli.stdout_execute verbose hone htwo hp', htable⟩

theorem buildPair_stopped (hs : h.Stopped svc state log) (before after : String) :
    buildPair svc before after h = (.error .disconnected, h) :=
  bind_error (hs.send (.parseCode before))

/-- Whatever a host has done and whatever waits there, as long as the next handles are new: a caller who
asks for the pair of two texts

* gets it as `PairBuilt` says, if it gets one;
* gets one, or is told that the time is over while the worker runs, or that the worker has stopped, which
  it had before unless the parser has crashed on a text that waited or on one of the two;
* gets one if the worker runs, the parser returns from all these calls and the worker has the time for
  them. -/
theorem buildPair_delivers (hh : h.Reachable svc) (hfresh : svc.Fresh (h.handles + 2))
    (before after : String) :
    (∀ p h', buildPair svc before after h = (.ok (.ok p), h') →
      PairBuilt svc h before after p h') ∧
    ((∃ p h', buildPair svc before after h = (.ok (.ok p), h')) ∨
      (∃ h', buildPair svc before after h = (.error (.timeout svc.timeout), h') ∧
        h'.worker.isSome) ∨
      ∃ h', buildPair svc before after h = (.error .disconnected, h') ∧ h'.worker = none ∧
        ∀ w, h.worker = some w → svc.parse.Crashes w.state (h.texts ++ [before, after])) ∧
    ∀ w s, h.worker = some w → svc.parse.after w.state (h.texts ++ [before, after]) = some s →
      (∀ steps ∈ h.pace, h.queue.length + 2 ≤ steps) →
      ∃ p h', buildPair svc before after h = (.ok (.ok p), h') := by
  obtain ⟨state, log, ⟨waiting, w, hr⟩ | hs⟩ := hh.accounted
  · have htexts : h.texts = waiting.filterMap Request.code? := by
      rw [Host.texts, hr.queue, Host.map_snd_ticketed]
    have hhandles : h.handles = w.issued + (waiting.filterMap Request.code?).length := by
      rw [Host.handles, hr.worker, htexts]
      rfl
    rw [hhandles] at hfresh
    rw [htexts]
    refine ⟨fun p h' hbuild => pairBuilt_of_running hr hfresh hbuild, ?_, ?_⟩
    · rcases buildPair_cases hr hfresh before after with ⟨e, h', hbuild, ⟨rfl, hsome⟩ |
        ⟨rfl, hnone, hcrash⟩⟩ | ⟨log', w₁, left, s, right, w', h', -, -, -, -, -, -, hbuild⟩
      · exact .inr (.inl ⟨h', hbuild, hsome⟩)
      · refine .inr (.inr ⟨h', hbuild, hnone, fun v hv => ?_⟩)
        obtain rfl := Option.some.inj (hr.worker.symm.trans hv)
        rw [Host.Crashes, List.filterMap_append, List.filterMap_map, List.filterMap_append] at hcrash
        exact (CodeParser.crashes_append_iff hr.run.state_eq).mp hcrash
      · obtain ⟨p, hp, -⟩ := Pair.exists_builtFrom left right
        exact .inl ⟨p, h', hp ▸ hbuild⟩
    · intro v s hv hreturns hpace
      obtain rfl := Option.some.inj (hr.worker.symm.trans hv)
      rw [hr.queue, Host.length_ticketed] at hpace
      obtain ⟨left, right, h', hbuild⟩ := buildPair_ok hr hfresh hreturns hpace
      obtain ⟨p, hp, -⟩ := Pair.exists_builtFrom left right
      exact ⟨p, h', hp ▸ hbuild⟩
  · have hbuild := buildPair_stopped hs before after
    have hrunning : ∀ w, h.worker ≠ some w := by simp [hs.worker]
    refine ⟨fun p h' hok => ?_, .inr (.inr ⟨h, hbuild, hs.worker, ?_⟩), ?_⟩
    · rw [hbuild] at hok
      cases hok
    · intro w hw
      exact absurd hw (hrunning w)
    · intro w s hw
      exact absurd hw (hrunning w)

/-- A pair behind a parse and a release of a handle that is not in use yet. -/
theorem buildPair_behind_release :
    ∃ (svc : Service Nat) (h : Host Nat), h.Reachable svc ∧ svc.Fresh (h.handles + 2) ∧
      h.queue.map Prod.snd = [.parseCode "x", .releaseTree ⟨1⟩] ∧
      ∃ p h', buildPair svc "a" "b" h = (.ok (.ok p), h') ∧ PairBuilt svc h "a" "b" p h' := by
  let svc : Service Nat :=
    ⟨fun n code => .returned [.atom ⟨[], code, .normal⟩] (n + 1), fun i => ⟨BitVec.ofNat 128 i⟩,
      Duration.ofMillis 1⟩
  let h : Host Nat := (((Host.new 0).send (.parseCode "x")).2.send (.releaseTree ⟨1⟩)).2
  have hh : h.Reachable svc := .send _ (.send _ (.new 0))
  have hfresh : svc.Fresh (h.handles + 2) := by
    unfold Service.Fresh
    decide
  obtain ⟨hbuilt, -, hreturns⟩ := buildPair_delivers hh hfresh "a" "b"
  have hnone : h.pace = [] := rfl
  obtain ⟨p, h', hbuild⟩ := hreturns (Worker.new 0) 3 rfl rfl (by simp [hnone])
  exact ⟨svc, h, hh, hfresh, rfl, p, h', hbuild, hbuilt p h' hbuild⟩

end Client

end TwinForest
