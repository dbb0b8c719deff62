import TwinForest.Proofs.WorkerRuns

/-!
# Requests that wait in a queue

The requests that are sent to a host get the tickets 0, 1, 2 and so on, and the worker answers them in
this order. So a host is told by two lists: the log of the requests that have been answered, whose
replies are found by their places, and the requests that still wait. Sending adds to the one list, a
step of the worker moves a request to the other, and a request on which the parser crashes ends it all.

## Main definitions

* `Host.Reachable`: the hosts that callers, the worker and the clock lead to.
* `Host.Running`, `Host.Stopped`: how far a host has got, while its worker runs and after.
* `Host.Proceeds`: where a running host may get.
* `Host.Accounted`: a host with a log from its start on.

## Main results

* `Host.Running.step`, `Host.Running.advance`: what one step does, and what many do.
* `Host.Running.wait`: what a caller gets.
* `Host.Running.wait_ok`: a caller gets the reply if the parser returns in time.
* `Host.Reachable.accounted`: what is known of every reachable host.
-/

namespace TwinForest.Host

variable {σ : Type} {svc : Service σ} {state : σ} {h h' : Host σ} {w : Worker σ}
  {log : List Exchange} {waiting : List Request} {r : Request}

/-- The hosts that callers, the worker and the clock lead to. The worker of a host that is closed stops
between two steps. -/
inductive Reachable (svc : Service σ) : Host σ → Prop where
  | new (state : σ) : Reachable svc (.new state)
  | send {h : Host σ} (r : Request) : Reachable svc h → Reachable svc (h.send r).2
  | step {h : Host σ} : Reachable svc h → Reachable svc (h.step svc)
  | wait {h : Host σ} (ticket : Ticket) : Reachable svc h → Reachable svc (h.wait svc ticket).2
  | close {h : Host σ} : Reachable svc h → Reachable svc h.stop
  | pace {h : Host σ} (pace : List Nat) : Reachable svc h → Reachable svc { h with pace }

/-- A host that `Host.close` closes makes a step before it stops. -/
theorem Reachable.closed (hh : h.Reachable svc) : (h.close svc).Reachable svc :=
  hh.step.close

/-! ## How far a host has got -/

def ticketed (first : Ticket) : List Request → List (Ticket × Request)
  | [] => []
  | r :: rs => (first, r) :: ticketed (first + 1) rs

theorem ticketed_concat (first : Ticket) (rs : List Request) (r : Request) :
    ticketed first (rs ++ [r]) = ticketed first rs ++ [(first + rs.length, r)] := by
  induction rs generalizing first with
  | nil => rfl
  | cons s rs ih =>
    simp only [List.cons_append, ticketed, ih, List.length_cons]
    rw [Nat.add_assoc, Nat.add_comm 1]

@[simp] theorem map_snd_ticketed (first : Ticket) (rs : List Request) :
    (ticketed first rs).map Prod.snd = rs := by
  induction rs generalizing first with
  | nil => rfl
  | cons r rs ih => simp [ticketed, ih]

@[simp] theorem length_ticketed (first : Ticket) (rs : List Request) :
    (ticketed first rs).length = rs.length := by
  rw [← List.length_map (f := Prod.snd), map_snd_ticketed]

/-- The worker has answered the requests of the log, and the others wait. -/
structure Running (svc : Service σ) (state : σ) (h : Host σ) (log : List Exchange)
    (waiting : List Request) (w : Worker σ) : Prop where
  worker : h.worker = some w
  run : Worker.Runs svc (.new state) log w
  queue : h.queue = ticketed log.length waiting
  replies : ∀ t : Ticket, h.replies[t]? = log[t]?.map Exchange.reply
  sent : h.sent = log.length + waiting.length

/-- The worker has stopped after it answered the requests of the log. -/
structure Stopped (svc : Service σ) (state : σ) (h : Host σ) (log : List Exchange) : Prop where
  worker : h.worker = none
  queue : h.queue = []
  run : ∃ w, Worker.Runs svc (.new state) log w
  replies : ∀ t : Ticket, h.replies[t]? = log[t]?.map Exchange.reply

theorem Running.setPace (hr : h.Running svc state log waiting w) (pace : List Nat) :
    Running svc state { h with pace } log waiting w :=
  ⟨hr.worker, hr.run, hr.queue, hr.replies, hr.sent⟩

theorem Running.stop (hr : h.Running svc state log waiting w) : h.stop.Stopped svc state log :=
  ⟨rfl, rfl, ⟨w, hr.run⟩, hr.replies⟩

theorem Running.send (hr : h.Running svc state log waiting w) (r : Request) :
    (h.send r).1 = .ok (log.length + waiting.length) ∧
      (h.send r).2.Running svc state log (waiting ++ [r]) w := by
  have hsend : h.send r = (.ok h.sent,
      { h with queue := h.queue ++ [(h.sent, r)], sent := h.sent + 1 }) := by
    simp [Host.send, hr.worker]
  rw [hsend]
  refine ⟨by rw [hr.sent], hr.worker, hr.run, ?_, hr.replies, ?_⟩
  · simp only [hr.queue, hr.sent, ticketed_concat]
  · simp only [hr.sent, List.length_append, List.length_singleton, Nat.add_assoc]

@[simp] theorem pace_send (h : Host σ) (r : Request) : (h.send r).2.pace = h.pace := by
  unfold Host.send
  split <;> rfl

theorem Stopped.send (hs : h.Stopped svc state log) (r : Request) :
    h.send r = (.error .disconnected, h) := by
  simp [Host.send, hs.worker]

/-! ## Steps of the worker -/

theorem Running.step_idle (hr : h.Running svc state log [] w) : h.step svc = h := by
  simp [Host.step, hr.worker, hr.queue, ticketed]

/-- A reply is found at the place of its request in the log. -/
theorem Running.answer (hr : h.Running svc state log (r :: waiting) w) {reply : Reply}
    {w' : Worker σ} (hhandle : w.handle svc.parse svc.supply r = .replied reply w') :
    (h.step svc).Running svc state (log ++ [⟨r, reply⟩]) waiting w' := by
  have hstep : h.step svc = { h with
      worker := some w', queue := ticketed (log.length + 1) waiting,
      replies := h.replies.insert log.length reply } := by
    simp [Host.step, hr.worker, hr.queue, ticketed, hhandle]
  rw [hstep]
  refine ⟨rfl, hr.run.answer hhandle, by simp, fun t => ?_, ?_⟩
  · simp only [Std.HashMap.getElem?_insert, hr.replies, beq_iff_eq]
    rcases Nat.lt_trichotomy t log.length with hlt | rfl | hlt
    · rw [if_neg (Nat.ne_of_gt hlt), List.getElem?_append_left hlt]
    · simp
    · rw [if_neg (Nat.ne_of_lt hlt), List.getElem?_eq_none (Nat.le_of_lt hlt),
        List.getElem?_eq_none (by simpa using Nat.succ_le_of_lt hlt)]
  · simp only [hr.sent, List.length_append, List.length_cons, List.length_nil]
    omega

/-- A step answers the first request that waits, or leaves the host as it is, or the parser crashes on
the request and the worker stops. -/
theorem Running.step (hr : h.Running svc state log (r :: waiting) w) :
    (∃ reply w', w.handle svc.parse svc.supply r = .replied reply w' ∧
      (h.step svc).Running svc state (log ++ [⟨r, reply⟩]) waiting w') ∨
    h.step svc = h ∨
    ((h.step svc).Stopped svc state log ∧
      ∃ code, r = .parseCode code ∧ svc.parse w.state code = .crashed) := by
  cases hhandle : w.handle svc.parse svc.supply r with
  | replied reply w' => exact .inl ⟨reply, w', rfl, hr.answer hhandle⟩
  | unfinished =>
    exact .inr (.inl (by simp [Host.step, hr.worker, hr.queue, ticketed, hhandle]))
  | crashed =>
    have hstep : h.step svc = h.stop := by
      simp [Host.step, hr.worker, hr.queue, ticketed, hhandle]
    exact .inr (.inr ⟨hstep ▸ hr.stop, Worker.handle_crashed hhandle⟩)

@[simp] theorem pace_step (svc : Service σ) (h : Host σ) : (h.step svc).pace = h.pace := by
  unfold Host.step
  split
  · split <;> rfl
  · rfl

@[simp] theorem pace_advance (svc : Service σ) (h : Host σ) (n : Nat) :
    (h.advance svc n).pace = h.pace := by
  induction n generalizing h with
  | zero => rfl
  | succ n ih => rw [Host.advance, ih, pace_step]

theorem Stopped.advance (hs : h.Stopped svc state log) (n : Nat) : h.advance svc n = h := by
  induction n with
  | zero => rfl
  | succ n ih => simpa [Host.advance, Host.step, hs.worker] using ih

def Crashes (svc : Service σ) (state : σ) (requests : List Request) : Prop :=
  svc.parse.Crashes state (requests.filterMap Request.code?)

/-- Since a host had the given log, its worker has answered some of the requests that waited, and
unless the parser has crashed on one of them, the others wait still. -/
def Proceeds (svc : Service σ) (state : σ) (log : List Exchange) (waiting : List Request)
    (log' : List Exchange) (h' : Host σ) : Prop :=
  ∃ waiting', waiting = log'.map Exchange.request ++ waiting' ∧
    ((∃ w', h'.Running svc state (log ++ log') waiting' w') ∨
      (waiting' ≠ [] ∧ h'.Stopped svc state (log ++ log') ∧
        Crashes svc state (log.map Exchange.request ++ waiting)))

theorem Running.crashes (hr : h.Running svc state log (r :: waiting) w) {code : String}
    (hr' : r = .parseCode code) (hcrash : svc.parse w.state code = .crashed) :
    Crashes svc state (log.map Exchange.request ++ r :: waiting) := by
  have hstate := hr.run.state_eq
  rw [Crashes, List.filterMap_append, List.filterMap_map, hr']
  refine (CodeParser.crashes_append_iff hstate).mpr ?_
  simp [Request.code?, CodeParser.Crashes, hcrash]

theorem Running.proceeds (hr : h.Running svc state log waiting w) :
    Proceeds svc state log waiting [] h :=
  ⟨waiting, rfl, .inl ⟨w, by rwa [List.append_nil]⟩⟩

theorem Running.advance (hr : h.Running svc state log waiting w) (n : Nat) :
    ∃ log', Proceeds svc state log waiting log' (h.advance svc n) := by
  induction n generalizing h log waiting w with
  | zero => exact ⟨[], hr.proceeds⟩
  | succ n ih =>
    rw [Host.advance]
    cases waiting with
    | nil =>
      rw [hr.step_idle]
      exact ih hr
    | cons r waiting =>
      rcases hr.step with ⟨reply, w', -, hrun⟩ | hstay | ⟨hstop, code, hcode, hcrash⟩
      · obtain ⟨log', waiting', rfl, hlater⟩ := ih hrun
        refine ⟨⟨r, reply⟩ :: log', waiting', rfl, ?_⟩
        simpa using hlater
      · rw [hstay]
        exact ih hr
      · rw [hstop.advance]
        exact ⟨[], r :: waiting, rfl,
          .inr ⟨by simp, by rwa [List.append_nil], hr.crashes hcode hcrash⟩⟩

/-- When the parser returns from all calls that wait, as many steps as there are requests answer them
all. -/
theorem Running.advance_all (hr : h.Running svc state log waiting w) {log' : List Exchange}
    {w' : Worker σ} (hrun : Worker.Runs svc w log' w')
    (hrequests : log'.map Exchange.request = waiting) {n : Nat} (hn : waiting.length ≤ n) :
    (h.advance svc n).Running svc state (log ++ log') [] w' := by
  induction n generalizing h log waiting w log' with
  | zero =>
    obtain rfl := List.length_eq_zero_iff.mp (Nat.le_zero.mp hn)
    obtain rfl := List.map_eq_nil_iff.mp hrequests
    obtain rfl := Worker.runs_nil_iff.mp hrun
    rwa [List.append_nil]
  | succ n ih =>
    rw [Host.advance]
    cases log' with
    | nil =>
      obtain rfl := hrequests
      rw [hr.step_idle]
      exact ih hr hrun rfl (Nat.zero_le _)
    | cons x log' =>
      obtain rfl := hrequests
      obtain ⟨v, hx, hrest⟩ := Worker.runs_cons_iff.mp hrun
      have hlater := ih (hr.answer hx) hrest rfl (Nat.le_of_succ_le_succ hn)
      rwa [List.append_assoc, List.singleton_append] at hlater

/-! ## Waiting -/

theorem Running.elapse (hr : h.Running svc state log waiting w) :
    ∃ log', Proceeds svc state log waiting log' (h.elapse svc) := by
  unfold Host.elapse
  split
  · exact hr.advance _
  · exact (hr.setPace _).advance _

/-- The reply at a place of a log, for a caller who waited for it until the host was as given. -/
def replyAt (svc : Service σ) (h : Host σ) (log : List Exchange) (t : Ticket) :
    Except ServiceError Reply :=
  match log[t]? with
  | some x => .ok x.reply
  | none => .error (if h.worker.isSome then .timeout svc.timeout else .disconnected)

theorem wait_eq_replyAt (t : Ticket)
    (hreplies : ∀ t : Ticket, (h.elapse svc).replies[t]? = log[t]?.map Exchange.reply) :
    h.wait svc t = (replyAt svc (h.elapse svc) log t, h.elapse svc) := by
  simp only [Host.wait, hreplies, replyAt]
  cases log[t]? <;> rfl

/-- A caller gets the reply at the place of the ticket, if the worker gets there while the caller
waits. -/
theorem Running.wait (hr : h.Running svc state log waiting w) (t : Ticket) :
    ∃ log' h', h.wait svc t = (replyAt svc h' (log ++ log') t, h') ∧
      Proceeds svc state log waiting log' h' := by
  obtain ⟨log', waiting', hwaiting, hlater⟩ := hr.elapse
  refine ⟨log', h.elapse svc, wait_eq_replyAt t ?_, waiting', hwaiting, hlater⟩
  rcases hlater with ⟨w', hr'⟩ | ⟨-, hs, -⟩
  · exact hr'.replies
  · exact hs.replies

theorem Stopped.wait (hs : h.Stopped svc state log) (t : Ticket) :
    ∃ pace, (h.wait svc t).2 = { h with pace } := by
  have hidle : ∀ pace, Stopped svc state { h with pace } log := fun pace =>
    ⟨hs.worker, hs.queue, hs.run, hs.replies⟩
  have hsnd : (h.wait svc t).2 = h.elapse svc := by
    simp only [Host.wait]
    split <;> rfl
  rw [hsnd]
  unfold Host.elapse
  split
  · rw [settle, hs.advance]
    exact ⟨h.pace, rfl⟩
  · rw [(hidle _).advance]
    exact ⟨_, rfl⟩

/-- A caller gets the reply, when the parser returns from all calls that wait and the worker has the
time to make as many steps. -/
theorem Running.wait_ok (hr : h.Running svc state log waiting w) {log' : List Exchange}
    {w' : Worker σ} (hrun : Worker.Runs svc w log' w')
    (hrequests : log'.map Exchange.request = waiting)
    (hpace : ∀ steps ∈ h.pace, waiting.length ≤ steps) (t : Ticket) :
    ∃ h', h.wait svc t = (replyAt svc h' (log ++ log') t, h') ∧
      h'.Running svc state (log ++ log') [] w' ∧ h'.pace ⊆ h.pace := by
  have hlater : (h.elapse svc).Running svc state (log ++ log') [] w' ∧
      (h.elapse svc).pace ⊆ h.pace := by
    unfold Host.elapse
    split
    · have hsteps : waiting.length = h.queue.length := by rw [hr.queue, length_ticketed]
      refine ⟨hr.advance_all hrun hrequests (Nat.le_of_eq hsteps), ?_⟩
      rw [settle, pace_advance]
      exact List.Subset.refl _
    · rename_i steps pace hcons
      have hsteps : waiting.length ≤ steps := hpace steps (by rw [hcons]; exact List.mem_cons_self)
      refine ⟨(hr.setPace pace).advance_all hrun hrequests hsteps, ?_⟩
      rw [pace_advance, hcons]
      exact List.subset_cons_self _ _
  exact ⟨_, wait_eq_replyAt t hlater.1.replies, hlater⟩

/-! ## Reachable hosts -/

def Accounted (svc : Service σ) (h : Host σ) : Prop :=
  ∃ state log, (∃ waiting w, h.Running svc state log waiting w) ∨ h.Stopped svc state log

theorem Running.accounted (hr : h.Running svc state log waiting w) : h.Accounted svc :=
  ⟨state, log, .inl ⟨waiting, w, hr⟩⟩

theorem Stopped.accounted (hs : h.Stopped svc state log) : h.Accounted svc :=
  ⟨state, log, .inr hs⟩

theorem Proceeds.accounted {log' : List Exchange}
    (hp : Proceeds svc state log waiting log' h) : h.Accounted svc := by
  obtain ⟨waiting', -, ⟨w', hr⟩ | ⟨-, hs, -⟩⟩ := hp
  · exact hr.accounted
  · exact hs.accounted

theorem Accounted.step (hh : h.Accounted svc) : (h.step svc).Accounted svc := by
  obtain ⟨state, log, ⟨waiting, w, hr⟩ | hs⟩ := hh
  · obtain ⟨log', hp⟩ := hr.advance 1
    exact hp.accounted
  · have hstay : h.step svc = h := hs.advance 1
    rw [hstay]
    exact hs.accounted

theorem Accounted.stop (hh : h.Accounted svc) : h.stop.Accounted svc := by
  obtain ⟨state, log, ⟨waiting, w, hr⟩ | hs⟩ := hh
  · exact hr.stop.accounted
  · exact Stopped.accounted ⟨rfl, rfl, hs.run, hs.replies⟩

/-- Whatever is done with a host, it has answered the requests of some log from its start on. -/
theorem Reachable.accounted (hh : h.Reachable svc) : h.Accounted svc := by
  induction hh with
  | new state =>
    have hr : Running svc state (Host.new state) [] [] (Worker.new state) :=
      ⟨rfl, .start, rfl, fun t => by simp [Host.new], rfl⟩
    exact hr.accounted
  | send r _ ih =>
    obtain ⟨state, log, ⟨waiting, w, hr⟩ | hs⟩ := ih
    · exact (hr.send r).2.accounted
    · rw [hs.send]
      exact hs.accounted
  | step _ ih => exact ih.step
  | wait ticket _ ih =>
    obtain ⟨state, log, ⟨waiting, w, hr⟩ | hs⟩ := ih
    · obtain ⟨log', h', hwait, hp⟩ := hr.wait ticket
      rw [hwait]
      exact hp.accounted
    · obtain ⟨pace, hwait⟩ := hs.wait ticket
      rw [hwait]
      exact Stopped.accounted ⟨hs.worker, hs.queue, hs.run, hs.replies⟩
  | close _ ih => exact ih.stop
  | pace pace _ ih =>
    obtain ⟨state, log, ⟨waiting, w, hr⟩ | hs⟩ := ih
    · exact (hr.setPace pace).accounted
    · exact Stopped.accounted ⟨hs.worker, hs.queue, hs.run, hs.replies⟩

end TwinForest.Host
