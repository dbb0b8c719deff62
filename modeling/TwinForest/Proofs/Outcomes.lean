import TwinForest.Proofs.Hosting

/-!
# What becomes of requests when the worker stops

Callers send requests and wait for replies at any time, while the worker answers at its own pace, until
the parser crashes or the host is closed. The requests up to some point have got the replies that the
worker gives to them one after the other. The request on which the parser crashed, those that waited
behind it and those that were sent later have got none. This does not depend on when a caller waits.

## Main definitions

* `Host.Event`, `Host.Course`: what callers are told, and the courses that things may take.
* `Host.sends`, `Host.outcome`: the requests with what their senders were told, and what becomes of them.
* `Host.told`: what is told of a request after the given log.
* `Host.Ongoing`, `Host.Ended`: what is known of a course while the worker runs, and after.

## Main results

* `Host.Ongoing.work`, `Host.Followed.send`, `Host.Followed.wait`, `Host.Followed.close`: what one event
  does.
* `Host.Course.followed`: what is known of every course.
* `Host.Course.told_of_stopped`: after the end, callers are always told the same.
* `Host.Course.outcomes_of_stopped`: what becomes of all requests.
-/

namespace TwinForest.Host

/-! ## Courses -/

inductive Event where
  | sent (r : Request) (answer : Except ServiceError Ticket)
  | waited (ticket : Ticket) (answer : Except ServiceError Reply)
  | closed

/-- What may happen to a host. Callers send and wait in any order, and the worker may make any number of
steps in between and during a wait. When the host is closed, the worker stops between two steps. -/
inductive Course {σ : Type} (svc : Service σ) (h : Host σ) : List Event → Host σ → Prop where
  | start : Course svc h [] h
  | send {events : List Event} {h' : Host σ} (r : Request) : Course svc h events h' →
      Course svc h (events ++ [.sent r (h'.send r).1]) (h'.send r).2
  | work {events : List Event} {h' : Host σ} : Course svc h events h' →
      Course svc h events (h'.step svc)
  | wait {events : List Event} {h' : Host σ} (ticket : Ticket) (pace : List Nat) :
      Course svc h events h' → Course svc h
        (events ++ [.waited ticket ({ h' with pace }.wait svc ticket).1])
        ({ h' with pace }.wait svc ticket).2
  | close {events : List Event} {h' : Host σ} : Course svc h events h' →
      Course svc h (events ++ [.closed]) h'.stop

/-- Among the courses is the one in which the host is closed by `Host.close`. -/
theorem Course.closed {σ : Type} {svc : Service σ} {h h' : Host σ} {events : List Event}
    (hc : Course svc h events h') : Course svc h (events ++ [.closed]) (h'.close svc) :=
  hc.work.close

def Event.send? : Event → Option (Request × Except ServiceError Ticket)
  | sent r answer => some (r, answer)
  | _ => none

def sends (events : List Event) : List (Request × Except ServiceError Ticket) :=
  events.filterMap Event.send?

variable {σ : Type} {svc : Service σ} {state : σ} {h h' : Host σ} {w : Worker σ}
  {log log' : List Exchange} {waiting taken refused : List Request} {events : List Event}

/-- What becomes of a request whose sender was told the given: it was refused, or there is a ticket to
wait with. -/
def outcome (svc : Service σ) (h : Host σ) (answer : Except ServiceError Ticket) :
    Except ServiceError Reply := do
  (h.wait svc (← answer)).1

/-- What a caller is told of the request at a place, once the worker has stopped after the given log. -/
def told (log : List Exchange) (ticket : Ticket) : Except ServiceError Reply :=
  log[ticket]?.elim (.error .disconnected) fun x => .ok x.reply

@[simp] theorem sends_concat (events : List Event) (e : Event) :
    sends (events ++ [e]) = sends events ++ e.send?.toList := by
  rw [sends, List.filterMap_append, List.filterMap_cons]
  cases e.send? <;> rfl

theorem told_append {t : Ticket} (ht : t < log.length) (log' : List Exchange) :
    told (log ++ log') t = told log t := by
  rw [told, List.getElem?_append_left ht, told]

theorem replyAt_of_running (hw : h.worker = some w) (t : Ticket) :
    replyAt svc h log t = .error (.timeout svc.timeout) ∨
      t < log.length ∧ replyAt svc h log t = told log t := by
  unfold replyAt told
  cases hx : log[t]? with
  | none => exact .inl (by simp [hw])
  | some x => exact .inr ⟨(List.getElem?_eq_some_iff.mp hx).1, rfl⟩

theorem replyAt_of_stopped (hw : h.worker = none) (t : Ticket) :
    replyAt svc h log t = told log t := by
  unfold replyAt told
  cases log[t]? <;> simp [hw]

/-! ## What is known of a course -/

def accepted (rs : List Request) : List (Request × Except ServiceError Ticket) :=
  (ticketed 0 rs).map fun p => (p.2, .ok p.1)

theorem accepted_concat (rs : List Request) (r : Request) :
    accepted (rs ++ [r]) = accepted rs ++ [(r, .ok rs.length)] := by
  simp [accepted, ticketed_concat]

/-- The worker runs, and all requests were taken. Whoever has waited was told that the time is over, or
got the reply. -/
structure Ongoing (svc : Service σ) (state : σ) (events : List Event) (h : Host σ)
    (log : List Exchange) (waiting : List Request) (w : Worker σ) : Prop where
  running : h.Running svc state log waiting w
  sends_eq : sends events = accepted (log.map Exchange.request ++ waiting)
  not_closed : .closed ∉ events
  heard : ∀ t answer, .waited t answer ∈ events →
    answer = .error (.timeout svc.timeout) ∨ t < log.length ∧ answer = told log t

/-- The worker has stopped after it answered some requests, since the host was closed or the parser
crashed on the next one. Others had been taken by then, and those sent later were refused. -/
structure Ended (svc : Service σ) (state : σ) (events : List Event) (h : Host σ)
    (log : List Exchange) (taken refused : List Request) (w : Worker σ) : Prop where
  stopped : h.Stopped svc state log
  run : Worker.Runs svc (.new state) log w
  sends_eq : sends events = accepted (log.map Exchange.request ++ taken) ++
    refused.map fun r => (r, .error .disconnected)
  cause : .closed ∉ events →
    ∃ code rest, taken = .parseCode code :: rest ∧ svc.parse w.state code = .crashed
  heard : ∀ t answer, .waited t answer ∈ events →
    answer = .error (.timeout svc.timeout) ∨ answer = told log t

def Followed (svc : Service σ) (state : σ) (events : List Event) (h : Host σ) : Prop :=
  (∃ log waiting w, Ongoing svc state events h log waiting w) ∨
    ∃ log taken refused w, Ended svc state events h log taken refused w

theorem Stopped.setPace (hs : h.Stopped svc state log) (pace : List Nat) :
    Stopped svc state { h with pace } log :=
  ⟨hs.worker, hs.queue, hs.run, hs.replies⟩

theorem Followed.setPace (hf : Followed svc state events h) (pace : List Nat) :
    Followed svc state events { h with pace } := by
  obtain ⟨log, waiting, w, ho⟩ | ⟨log, taken, refused, w, he⟩ := hf
  · exact .inl ⟨log, waiting, w, { ho with running := ho.running.setPace pace }⟩
  · exact .inr ⟨log, taken, refused, w, { he with stopped := he.stopped.setPace pace }⟩

/-! ## Steps of the worker -/

/-- A step answers the next request, or changes nothing, or ends the course by a crash. -/
theorem Ongoing.work (ho : Ongoing svc state events h log waiting w) :
    Followed svc state events (h.step svc) := by
  cases waiting with
  | nil =>
    rw [ho.running.step_idle]
    exact .inl ⟨log, _, w, ho⟩
  | cons r waiting =>
    rcases ho.running.step with ⟨reply, w', -, hr⟩ | hstay | ⟨hs, code, hr, hcrash⟩
    · refine .inl ⟨log ++ [⟨r, reply⟩], waiting, w', hr, by simp [ho.sends_eq], ho.not_closed,
        fun t answer hmem => ?_⟩
      rcases ho.heard t answer hmem with htime | ⟨ht, hanswer⟩
      · exact .inl htime
      · have hlonger : t < (log ++ [(⟨r, reply⟩ : Exchange)]).length := by
          simpa using Nat.lt_succ_of_lt ht
        exact .inr ⟨hlonger, by rw [told_append ht, hanswer]⟩
    · rw [hstay]
      exact .inl ⟨log, _, w, ho⟩
    · exact .inr ⟨log, r :: waiting, [], w, hs, ho.running.run, by simp [ho.sends_eq],
        fun _ => ⟨code, waiting, by rw [hr], hcrash⟩,
        fun t answer hmem => (ho.heard t answer hmem).imp_right And.right⟩

theorem Followed.work (hf : Followed svc state events h) : Followed svc state events (h.step svc) := by
  obtain ⟨log, waiting, w, ho⟩ | ⟨log, taken, refused, w, he⟩ := hf
  · exact ho.work
  · have hstay : h.step svc = h := he.stopped.advance 1
    rw [hstay]
    exact .inr ⟨log, taken, refused, w, he⟩

theorem Followed.advance (hf : Followed svc state events h) (n : Nat) :
    Followed svc state events (h.advance svc n) := by
  induction n generalizing h with
  | zero => exact hf
  | succ n ih => exact ih hf.work

theorem Followed.elapse (hf : Followed svc state events h) :
    Followed svc state events (h.elapse svc) := by
  unfold Host.elapse
  split
  · exact hf.advance _
  · exact (hf.setPace _).advance _

/-! ## Callers -/

theorem Followed.send (hf : Followed svc state events h) (r : Request) :
    Followed svc state (events ++ [.sent r (h.send r).1]) (h.send r).2 := by
  obtain ⟨log, waiting, w, ho⟩ | ⟨log, taken, refused, w, he⟩ := hf
  · obtain ⟨hticket, hr⟩ := ho.running.send r
    refine .inl ⟨log, waiting ++ [r], w, hr, ?_, by simp [ho.not_closed],
      fun t answer hmem => ho.heard t answer (by simpa using hmem)⟩
    rw [sends_concat, ho.sends_eq, hticket, ← List.append_assoc, accepted_concat]
    simp [Event.send?]
  · rw [he.stopped.send r]
    refine .inr ⟨log, taken, refused ++ [r], w, he.stopped, he.run, ?_,
      fun hopen => he.cause (by simpa using hopen),
      fun t answer hmem => he.heard t answer (by simpa using hmem)⟩
    simp [he.sends_eq, Event.send?]

theorem Followed.wait (hf : Followed svc state events h) (t : Ticket) :
    Followed svc state (events ++ [.waited t (h.wait svc t).1]) (h.wait svc t).2 := by
  obtain ⟨log, waiting, w, ho⟩ | ⟨log, taken, refused, w, he⟩ := hf.elapse
  · rw [wait_eq_replyAt t ho.running.replies]
    refine .inl ⟨log, waiting, w, ho.running, by simp [ho.sends_eq, Event.send?],
      by simp [ho.not_closed], fun t' answer hmem => ?_⟩
    rcases List.mem_append.mp hmem with hmem | hmem
    · exact ho.heard t' answer hmem
    · cases List.mem_singleton.mp hmem
      exact replyAt_of_running ho.running.worker t
  · rw [wait_eq_replyAt t he.stopped.replies]
    refine .inr ⟨log, taken, refused, w, he.stopped, he.run, by simp [he.sends_eq, Event.send?],
      fun hopen => he.cause (by simpa using hopen), fun t' answer hmem => ?_⟩
    rcases List.mem_append.mp hmem with hmem | hmem
    · exact he.heard t' answer hmem
    · cases List.mem_singleton.mp hmem
      exact .inr (replyAt_of_stopped he.stopped.worker t)

theorem Followed.close (hf : Followed svc state events h) :
    Followed svc state (events ++ [.closed]) h.stop := by
  obtain ⟨log, waiting, w, ho⟩ | ⟨log, taken, refused, w, he⟩ := hf
  · exact .inr ⟨log, waiting, [], w, ho.running.stop, ho.running.run,
      by simp [ho.sends_eq, Event.send?], by simp,
      fun t answer hmem => (ho.heard t answer (by simpa using hmem)).imp_right And.right⟩
  · exact .inr ⟨log, taken, refused, w, ⟨rfl, rfl, he.stopped.run, he.stopped.replies⟩, he.run,
      by simp [he.sends_eq, Event.send?], by simp,
      fun t answer hmem => he.heard t answer (by simpa using hmem)⟩

theorem Course.followed (hc : Course svc (.new state) events h) : Followed svc state events h := by
  induction hc with
  | start =>
    have hr : Running svc state (Host.new state) [] [] (Worker.new state) :=
      ⟨rfl, .start, rfl, fun t => by simp [Host.new], rfl⟩
    exact .inl ⟨[], [], .new state, hr, rfl, by simp, by simp⟩
  | send r _ ih => exact ih.send r
  | work _ ih => exact ih.work
  | wait t pace _ ih => exact (ih.setPace pace).wait t
  | close _ ih => exact ih.close

/-! ## After the end -/

theorem Stopped.told_wait (hs : h.Stopped svc state log) (t : Ticket) :
    (h.wait svc t).1 = told log t ∧ (h.wait svc t).2.Stopped svc state log := by
  have hs' : (h.elapse svc).Stopped svc state log := by
    unfold Host.elapse
    split
    · rw [settle, hs.advance]
      exact hs
    · rw [(hs.setPace _).advance]
      exact hs.setPace _
  rw [wait_eq_replyAt t hs'.replies]
  exact ⟨replyAt_of_stopped hs'.worker t, hs'⟩

/-- After the end, callers are told the same, whenever and in whatever order they ask. -/
theorem Course.told_of_stopped (hs : h.Stopped svc state log) (hc : Course svc h events h') :
    h'.Stopped svc state log ∧
      (∀ r answer, .sent r answer ∈ events → answer = .error .disconnected) ∧
      ∀ t answer, .waited t answer ∈ events → answer = told log t := by
  induction hc with
  | start => exact ⟨hs, by simp, by simp⟩
  | send r _ ih =>
    obtain ⟨hs', hsent, hwaited⟩ := ih
    rw [hs'.send r]
    refine ⟨hs', fun r' answer hmem => ?_, fun t answer hmem => hwaited t answer (by simpa using hmem)⟩
    rcases List.mem_append.mp hmem with hmem | hmem
    · exact hsent r' answer hmem
    · cases List.mem_singleton.mp hmem
      rfl
  | @work events h' _ ih =>
    obtain ⟨hs', htold⟩ := ih
    have hstay : h'.step svc = h' := hs'.advance 1
    rw [hstay]
    exact ⟨hs', htold⟩
  | wait t pace _ ih =>
    obtain ⟨hs', hsent, hwaited⟩ := ih
    obtain ⟨htold, hs''⟩ := (hs'.setPace pace).told_wait t
    refine ⟨hs'', fun r answer hmem => hsent r answer (by simpa using hmem), fun t' answer hmem => ?_⟩
    rcases List.mem_append.mp hmem with hmem | hmem
    · exact hwaited t' answer hmem
    · cases List.mem_singleton.mp hmem
      exact htold
  | close _ ih =>
    obtain ⟨hs', hsent, hwaited⟩ := ih
    exact ⟨⟨rfl, rfl, hs'.run, hs'.replies⟩, fun r answer hmem => hsent r answer (by simpa using hmem),
      fun t answer hmem => hwaited t answer (by simpa using hmem)⟩

theorem getElem?_ticketed (first : Ticket) (rs : List Request) (i : Nat) :
    (ticketed first rs)[i]? = rs[i]?.map fun r => (first + i, r) := by
  induction rs generalizing first i with
  | nil => rfl
  | cons r rs ih =>
    cases i with
    | zero => rfl
    | succ i => simp [ticketed, ih, Nat.add_assoc, Nat.add_comm 1]

/-- Of the requests that were taken, those of the log have got their replies and the others none. -/
theorem map_told_accepted (log : List Exchange) (taken : List Request) :
    (ticketed 0 (log.map Exchange.request ++ taken)).map (fun p => (p.2, told log p.1)) =
      log.map (fun x => (x.request, .ok x.reply)) ++ taken.map fun r => (r, .error .disconnected) := by
  refine List.ext_getElem? fun i => ?_
  rw [List.getElem?_map, getElem?_ticketed, Nat.zero_add, List.getElem?_append, List.getElem?_append,
    List.length_map, List.length_map]
  by_cases hi : i < log.length
  · simp [hi, told]
  · simp [hi, told, Function.comp_def]

/-- The requests of the log have got their replies, and all others have got none. -/
theorem Ended.map_outcome (he : Ended svc state events h log taken refused w) :
    (sends events).map (fun s => (s.1, outcome svc h s.2)) =
      log.map (fun x => (x.request, .ok x.reply)) ++
        (taken ++ refused).map fun r => (r, .error .disconnected) := by
  have hticket : ∀ t, outcome svc h (.ok t) = told log t := fun t => (he.stopped.told_wait t).1
  have haccepted : (accepted (log.map Exchange.request ++ taken)).map
      (fun s => (s.1, outcome svc h s.2)) = log.map (fun x => (x.request, .ok x.reply)) ++
        taken.map fun r => (r, .error .disconnected) := by
    rw [← map_told_accepted, accepted, List.map_map]
    exact List.map_congr_left fun p _ => by rw [Function.comp_apply, hticket]
  rw [he.sends_eq, List.map_append, haccepted, List.append_assoc, List.map_append, List.map_map]
  rfl

/-- When the worker of a host has stopped, whatever callers have sent and in whatever order they have
waited, the requests fall into a log from the start on and the rest.

* The requests of the log were sent first. They have got the replies of the log, and whoever has sent
  another one is told that the worker does not run.
* Unless the host was closed, the rest starts with a parse on which the parser crashed.
* Whoever has waited before was told the same, unless the time was over.
* Whatever happens afterwards, whoever sends is refused and whoever waits is told the same. -/
theorem Course.outcomes_of_stopped (hc : Course svc (.new state) events h) (hstop : h.worker = none) :
    ∃ log rest w, Worker.Runs svc (.new state) log w ∧
      (sends events).map (fun s => (s.1, outcome svc h s.2)) =
        log.map (fun x => (x.request, .ok x.reply)) ++ rest.map (fun r => (r, .error .disconnected)) ∧
      (.closed ∉ events →
        ∃ code more, rest = .parseCode code :: more ∧ svc.parse w.state code = .crashed) ∧
      (∀ t answer, .waited t answer ∈ events →
        answer = .error (.timeout svc.timeout) ∨ answer = outcome svc h (.ok t)) ∧
      ∀ later h', Course svc h later h' →
        (∀ r answer, .sent r answer ∈ later → answer = .error .disconnected) ∧
        ∀ t answer, .waited t answer ∈ later → answer = outcome svc h (.ok t) := by
  obtain ⟨log, waiting, w, ho⟩ | ⟨log, taken, refused, w, he⟩ := hc.followed
  · rw [ho.running.worker] at hstop
    cases hstop
  have hticket : ∀ t, outcome svc h (.ok t) = told log t := fun t => (he.stopped.told_wait t).1
  refine ⟨log, taken ++ refused, w, he.run, he.map_outcome, ?_, ?_, ?_⟩
  · intro hopen
    obtain ⟨code, rest, rfl, hcrash⟩ := he.cause hopen
    exact ⟨code, rest ++ refused, rfl, hcrash⟩
  · intro t answer hmem
    rw [hticket]
    exact he.heard t answer hmem
  · intro later h' hlater
    obtain ⟨-, hsent, hwaited⟩ := hlater.told_of_stopped he.stopped
    exact ⟨hsent, fun t answer hmem => (hwaited t answer hmem).trans (hticket t).symm⟩

/-- A request before a crash, the one that crashes, one behind it, and one that comes too late. -/
theorem Course.outcomes_around_crash :
    ∃ (svc : Service Nat) (events : List Event) (h : Host Nat),
      Course svc (.new 0) events h ∧ h.worker = none ∧ .closed ∉ events ∧
      (sends events).map (fun s => (s.1, outcome svc h s.2)) =
        [(.parseCode "a", .ok (.parsed ⟨0⟩)), (.parseCode "!", .error .disconnected),
         (.getTreeCount, .error .disconnected), (.getTree ⟨0⟩, .error .disconnected)] := by
  let svc : Service Nat :=
    ⟨fun n code => if code = "!" then .crashed else .returned [] (n + 1),
      fun i => ⟨BitVec.ofNat 128 i⟩, Duration.ofMillis 1⟩
  have hstart : Course svc (.new 0) [] (.new 0) := .start
  have hcourse := hstart.send (.parseCode "a") |>.send (.parseCode "!") |>.send .getTreeCount
    |>.work |>.work |>.send (.getTree ⟨0⟩)
  refine ⟨svc, _, _, hcourse, rfl, by simp, ?_⟩
  obtain ⟨log, rest, w, hrun, houtcomes, hcause, -⟩ := hcourse.outcomes_of_stopped rfl
  obtain ⟨code, more, rfl, hcrash⟩ := hcause (by simp)
  obtain rfl : code = "!" := by
    by_contra hne
    simp [svc, hne] at hcrash
  have hrequests : [.parseCode "a", .parseCode "!", .getTreeCount, .getTree ⟨0⟩] =
      log.map Exchange.request ++ .parseCode "!" :: more := by
    simpa [sends, Event.send?, Function.comp_def] using congrArg (List.map Prod.fst) houtcomes
  rw [houtcomes]
  -- The log ends where the request on which the parser crashes comes first.
  match log with
  | [] => simp at hrequests
  | [⟨r, reply⟩] =>
    obtain ⟨rfl, rfl⟩ : .parseCode "a" = r ∧ [.getTreeCount, .getTree ⟨0⟩] = more := by
      simpa using hrequests
    obtain ⟨v, hhandle, -⟩ := Worker.runs_cons_iff.mp hrun
    obtain ⟨-, -, -, rfl, -⟩ := Worker.of_handle_parseCode hhandle
    rfl
  | _ :: _ :: log =>
    have hrest : [.getTreeCount, .getTree ⟨0⟩] = log.map Exchange.request ++ .parseCode "!" :: more :=
      (List.cons.inj (List.cons.inj hrequests).2).2
    have hmem : Request.parseCode "!" ∈ [.getTreeCount, .getTree ⟨0⟩] := by
      rw [hrest]
      simp
    simp at hmem

end TwinForest.Host
