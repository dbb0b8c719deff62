import TwinForest.Proofs.Hosting
import TwinForest.Service.Client

/-!
# Calls of a caller

A call sends one request and waits for its reply. Either it is interrupted, since the time is over or
the worker has stopped, or the worker has answered everything that waited before it and then the
request itself. A reply is always of the kind that belongs to its request.
-/

namespace TwinForest.Client

variable {σ α β : Type} {svc : Service σ} {state : σ} {h h' : Host σ} {w w' w₁ : Worker σ}
  {log log' : List Exchange} {waiting : List Request} {r : Request}

/-! ## One call after the other -/

theorem bind_ok {c : Client σ α} {f : α → Client σ β} {a : α} (hc : c h = (.ok a, h')) :
    (c >>= f) h = f a h' := by
  change (ExceptT.bindCont f (c h).1) (c h).2 = f a h'
  rw [hc]
  rfl

theorem bind_error {c : Client σ α} {f : α → Client σ β} {e : ServiceError}
    (hc : c h = (.error e, h')) : (c >>= f) h = (.error e, h') := by
  change (ExceptT.bindCont f (c h).1) (c h).2 = (.error e, h')
  rw [hc]
  rfl

/-! ## Single requests -/

/-- A caller gets no reply, since the time is over or the parser has crashed on a request. -/
def Interrupted (svc : Service σ) (state : σ) (requests : List Request) (e : ServiceError)
    (h : Host σ) : Prop :=
  (e = .timeout svc.timeout ∧ h.worker.isSome) ∨
    (e = .disconnected ∧ h.worker = none ∧ Host.Crashes svc state requests)

theorem send_running (hr : h.Running svc state log waiting w) (r : Request) :
    ∃ h', send r h = (.ok (log.length + waiting.length), h') ∧
      h'.Running svc state log (waiting ++ [r]) w ∧ h'.pace = h.pace :=
  ⟨(h.send r).2, Prod.ext (hr.send r).1 rfl, (hr.send r).2, Host.pace_send h r⟩

/-- A caller who waits gets the reply at the place of the ticket, or is interrupted. -/
theorem wait_cases (hr : h.Running svc state log waiting w) (t : Ticket) :
    ∃ log' h', Host.Proceeds svc state log waiting log' h' ∧
      ((∃ x, (log ++ log')[t]? = some x ∧ wait svc t h = (.ok x.reply, h')) ∨
        ∃ e, wait svc t h = (.error e, h') ∧
          Interrupted svc state (log.map Exchange.request ++ waiting) e h') := by
  obtain ⟨log', h', hwait, hp⟩ := hr.wait t
  refine ⟨log', h', hp, ?_⟩
  change h.wait svc t = _ at hwait
  unfold Host.replyAt at hwait
  cases hx : (log ++ log')[t]? with
  | some x =>
    rw [hx] at hwait
    exact .inl ⟨x, rfl, hwait⟩
  | none =>
    rw [hx] at hwait
    refine .inr ⟨_, hwait, ?_⟩
    obtain ⟨waiting', -, ⟨w', hr'⟩ | ⟨-, hs, hcrash⟩⟩ := hp
    · exact .inl ⟨by simp [hr'.worker], by simp [hr'.worker]⟩
    · exact .inr ⟨by simp [hs.worker], hs.worker, hcrash⟩

/-- With the reply to the last request, everything has been answered. -/
theorem answered_all (hp : Host.Proceeds svc state log (waiting ++ [r]) log' h') {x : Exchange}
    (hx : (log ++ log')[log.length + waiting.length]? = some x) :
    ∃ log₁ w', log' = log₁ ++ [⟨r, x.reply⟩] ∧ log₁.map Exchange.request = waiting ∧
      h'.Running svc state (log ++ log') [] w' := by
  obtain ⟨waiting', hwaiting, hlater⟩ := hp
  rw [List.getElem?_append_right (Nat.le_add_right _ _), Nat.add_sub_cancel_left] at hx
  have hlt : waiting.length < log'.length := (List.getElem?_eq_some_iff.mp hx).1
  have hlength := congrArg List.length hwaiting
  simp only [List.length_append, List.length_singleton, List.length_map] at hlength
  obtain rfl : waiting' = [] := List.length_eq_zero_iff.mp (by omega)
  rw [List.append_nil] at hwaiting
  obtain ⟨log₁, last, rfl, hfirst, hlast⟩ := List.map_eq_append_iff.mp hwaiting.symm
  obtain ⟨⟨r', reply⟩, rfl, rfl⟩ := List.map_eq_singleton_iff.mp hlast
  obtain rfl : x = ⟨r', reply⟩ := by
    rw [← hfirst, List.length_map, List.getElem?_concat_length] at hx
    exact (Option.some.inj hx).symm
  rcases hlater with ⟨w', hr'⟩ | ⟨hne, -⟩
  · exact ⟨log₁, w', rfl, hfirst, hr'⟩
  · exact absurd rfl hne

/-- A request is interrupted, or the worker answers what waited before it and then the request. -/
theorem request_cases (hr : h.Running svc state log waiting w) (r : Request) :
    (∃ e h', request svc r h = (.error e, h') ∧
      Interrupted svc state (log.map Exchange.request ++ (waiting ++ [r])) e h') ∨
    ∃ log' reply w' h', request svc r h = (.ok reply, h') ∧
      log'.map Exchange.request = waiting ∧
      h'.Running svc state (log ++ log' ++ [⟨r, reply⟩]) [] w' := by
  obtain ⟨h₁, hsend, hr', -⟩ := send_running hr r
  have hrequest : request svc r h = wait svc (log.length + waiting.length) h₁ := bind_ok hsend
  rw [hrequest]
  obtain ⟨log', h', hp, ⟨x, hx, hwait⟩ | ⟨e, hwait, he⟩⟩ :=
    wait_cases hr' (log.length + waiting.length)
  · obtain ⟨log₁, w', rfl, hlog₁, hr''⟩ := answered_all hp hx
    exact .inr ⟨log₁, x.reply, w', h', hwait, hlog₁, by rwa [List.append_assoc]⟩
  · exact .inl ⟨e, h', hwait, he⟩

theorem request_stopped (hs : h.Stopped svc state log) (r : Request) :
    request svc r h = (.error .disconnected, h) :=
  bind_error (hs.send r)

/-- A request is answered, when the parser returns from all calls before it and the worker has the
time to make as many steps. -/
theorem request_ok (hr : h.Running svc state log waiting w) {reply : Reply}
    (hrun : Worker.Runs svc w log' w₁) (hrequests : log'.map Exchange.request = waiting)
    (hhandle : w₁.handle svc.parse svc.supply r = .replied reply w')
    (hpace : ∀ steps ∈ h.pace, waiting.length + 1 ≤ steps) :
    ∃ h', request svc r h = (.ok reply, h') ∧
      h'.Running svc state (log ++ log' ++ [⟨r, reply⟩]) [] w' ∧ h'.pace ⊆ h.pace := by
  obtain ⟨h₁, hsend, hr', hpace₁⟩ := send_running hr r
  have hrequest : request svc r h = wait svc (log.length + waiting.length) h₁ := bind_ok hsend
  have hsteps : ∀ steps ∈ h₁.pace, (waiting ++ [r]).length ≤ steps := by
    intro steps hmem
    rw [hpace₁] at hmem
    simpa using hpace steps hmem
  obtain ⟨h', hwait, hr'', hpace'⟩ := hr'.wait_ok (hrun.answer hhandle)
    (by rw [List.map_append, hrequests, List.map_singleton]) hsteps (log.length + waiting.length)
  have hplace : (log ++ (log' ++ [⟨r, reply⟩]))[log.length + waiting.length]? =
      some ⟨r, reply⟩ := by
    rw [← hrequests, List.length_map, ← List.append_assoc, ← List.length_append,
      List.getElem?_concat_length]
  refine ⟨h', ?_, by rwa [List.append_assoc], by rwa [← hpace₁]⟩
  rw [hrequest]
  change h₁.wait svc _ = _
  rw [hwait, Host.replyAt, hplace]

/-! ## Kinds of replies -/

/-- A call does not fail with a reply of another kind. -/
def Expected (c : Client σ α) (h : Host σ) : Prop :=
  ∀ expected found, (c h).1 ≠ .error (.unexpectedReply expected found)

structure TypedCalls (svc : Service σ) (h : Host σ) : Prop where
  parseCode : ∀ code, Expected (parseCode svc code) h
  parseString : ∀ id, Expected (parseString svc id) h
  treeString : ∀ id, Expected (treeString svc id) h
  tree : ∀ id, Expected (tree svc id) h
  takeTree : ∀ id, Expected (takeTree svc id) h
  release : ∀ id, Expected (release svc id) h
  treeCount : Expected (treeCount svc) h
  expectTree : ∀ id, Expected (expectTree svc id) h

theorem Interrupted.ne_unexpected {requests : List Request} {e : ServiceError}
    (he : Interrupted svc state requests e h) (expected found : String) :
    e ≠ .unexpectedReply expected found := by
  rcases he with ⟨rfl, -⟩ | ⟨rfl, -⟩ <;> simp

theorem Expected.bind {c : Client σ α} {f : α → Client σ β} (hc : Expected c h)
    (hf : ∀ a h', Expected (f a) h') : Expected (c >>= f) h := by
  intro expected found
  cases hresult : c h with
  | mk result h' =>
    cases result with
    | ok a =>
      rw [bind_ok hresult]
      exact hf a h' expected found
    | error e =>
      have hne := hc expected found
      rw [hresult] at hne
      rw [bind_error hresult]
      simpa using hne

/-- When every answer to a request can be converted, so can what a caller gets. -/
theorem expected_request {convert : Reply → Except ServiceError α} (hh : h.Accounted svc)
    (hconvert : ∀ (w : Worker σ) reply w', w.handle svc.parse svc.supply r = .replied reply w' →
      ∃ a, convert reply = .ok a) :
    Expected (do ofResult (convert (← request svc r))) h := by
  intro expected found
  obtain ⟨state, log, ⟨waiting, w, hr⟩ | hs⟩ := hh
  · rcases request_cases hr r with ⟨e, h', hrequest, he⟩ | ⟨log', reply, w', h', hrequest, -, hr'⟩
    · rw [bind_error hrequest]
      simpa using he.ne_unexpected expected found
    · obtain ⟨v, -, hhandle⟩ := Worker.runs_concat_iff.mp hr'.run
      obtain ⟨a, ha⟩ := hconvert v reply w' hhandle
      rw [bind_ok hrequest]
      simp [ofResult, ha]
  · rw [bind_error (request_stopped hs r)]
    simp

theorem expected_known (id : Handle) (found : Option (List ParseTree)) :
    Expected (known id found) h := by
  intro expected found'
  cases found with
  | some trees =>
    have hknown : known id (some trees) h = (.ok trees, h) := rfl
    simp [hknown]
  | none =>
    have hknown : known id none h = (.error (.unknownHandle id), h) := rfl
    simp [hknown]

/-- Every reply is of the kind that belongs to its request. -/
theorem typedCalls (hh : h.Accounted svc) : TypedCalls svc h := by
  have htree : ∀ id, Expected (tree svc id) h := fun id =>
    expected_request hh fun w reply w' hw => by cases hw; exact ⟨_, rfl⟩
  refine ⟨fun code => ?_, fun id => ?_, fun id => ?_, htree, fun id => ?_, fun id => ?_, ?_,
    fun id => (htree id).bind fun found _ => expected_known id found⟩
  · refine expected_request hh fun w reply w' hw => ?_
    obtain ⟨-, -, -, rfl, -⟩ := Worker.of_handle_parseCode hw
    exact ⟨_, rfl⟩
  all_goals
    refine expected_request hh fun w reply w' hw => ?_
    cases hw
    exact ⟨_, rfl⟩

end TwinForest.Client
