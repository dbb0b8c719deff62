import TwinForest.Proofs.PairCalls

/-!
# Pairs that a caller gives up

A caller who asks for a pair waits up to four times, for each parse and for each tree, and gives up when
the time is over. The requests that it has sent are answered all the same. A tree that it has not asked
for by then is never asked for, so it stays at the worker: both trees if the caller gives up at the first
wait, the second if it does so at one of the next two, and none only at the last.
-/

namespace TwinForest

/-! ## Handles in a log -/

section

variable {log log' : List Exchange} {t : Ticket} {ids : List Handle}

/-- From the given place on, the replies of the log give the handles. -/
def Gives (log : List Exchange) (t : Ticket) (ids : List Handle) : Prop :=
  ids.map .parsed <+: (log.drop t).map Exchange.reply

theorem Gives.nil (log : List Exchange) (t : Ticket) : Gives log t [] :=
  List.nil_prefix

theorem Gives.cons {id : Handle} {r : Request} (hx : log[t]? = some ⟨r, .parsed id⟩)
    (hids : Gives log (t + 1) ids) : Gives log t (id :: ids) := by
  obtain ⟨ht, hget⟩ := List.getElem?_eq_some_iff.mp hx
  rw [Gives, List.drop_eq_getElem_cons ht, hget]
  exact List.cons_prefix_cons.mpr ⟨rfl, hids⟩

theorem Gives.append (hids : Gives log t ids) (log' : List Exchange) : Gives (log ++ log') t ids := by
  rw [Gives, List.drop_append, List.map_append]
  exact hids.trans (List.prefix_append _ _)

/-- Handles that two parses gave are the first of the two, or both. -/
theorem Gives.eq_take {first second : Handle} {r r' : Request}
    (hids : Gives (log ++ ([⟨r, .parsed first⟩, ⟨r', .parsed second⟩] ++ log')) log.length ids)
    (hlength : ids.length ≤ 2) : ids = [first, second].take ids.length := by
  have hreplies : ids.map .parsed <+: [first, second].map .parsed ++ log'.map Exchange.reply := by
    simpa [Gives] using hids
  have htake := List.prefix_iff_eq_take.mp hreplies
  rw [List.length_map, List.take_append_of_le_length (by simpa using hlength), ← List.map_take] at htake
  exact List.map_injective_iff.mpr (fun _ _ h => Reply.parsed.inj h) htake

end

/-! ## Trees that are taken -/

/-- A new item of a table can go again after another one has come. -/
theorem insert_erase_other {trees : Std.HashMap Handle (List ParseTree)} {first second : Handle}
    (left right : List ParseTree) (hne : first ≠ second) (hfirst : first ∉ trees) :
    (((trees.insert first left).insert second right).erase first).Equiv (trees.insert second right) := by
  have hnone : trees[first]? = none := Std.HashMap.getElem?_eq_none hfirst
  refine Std.HashMap.Equiv.of_forall_getElem?_eq fun id => ?_
  simp only [Std.HashMap.getElem?_erase, Std.HashMap.getElem?_insert, beq_iff_eq]
  by_cases hid : first = id
  · rw [if_pos hid, ← hid, if_neg hne.symm, hnone]
  · rw [if_neg hid, if_neg hid]

namespace Worker

variable {σ : Type} {svc : Service σ} {state : σ} {w w' w₂ : Worker σ} {log log' : List Exchange}
  {waiting : List Request} {before after : String} {first second : Handle} {ids : List Handle}

def forget (w : Worker σ) (ids : List Handle) : Worker σ :=
  ids.foldl erase w

@[simp] theorem state_forget (w : Worker σ) (ids : List Handle) : (w.forget ids).state = w.state := by
  induction ids generalizing w with
  | nil => rfl
  | cons id ids ih => exact ih (w.erase id)

theorem Runs.forget (h : Runs svc w log w') (hrequests : log.map Exchange.request = ids.map .takeTree) :
    w' = w.forget ids := by
  induction ids generalizing w log with
  | nil =>
    obtain rfl := List.map_eq_nil_iff.mp hrequests
    exact runs_nil_iff.mp h
  | cons id ids ih =>
    obtain ⟨⟨_, reply⟩, log, rfl, rfl, hrest⟩ := List.map_eq_cons_iff.mp hrequests
    obtain ⟨v, hhandle, hrun⟩ := runs_cons_iff.mp h
    cases hhandle
    exact ih hrun hrest

/-- Two parses keep both trees until the first of them are taken. -/
theorem Runs.two_forgotten (h : Runs svc (.new state) log w) (hfresh : svc.Fresh (w.issued + 2))
    (h₂ : Runs svc w [⟨.parseCode before, .parsed first⟩, ⟨.parseCode after, .parsed second⟩] w₂)
    {taken : Nat} (htaken : taken ≤ 2) :
    ∃ left s right, svc.parse w.state before = .returned left s ∧
      svc.parse s after = .returned right w₂.state ∧
      (w₂.forget ([first, second].take taken)).trees.Equiv (w.trees.insertMany
        ([(svc.supply w.issued, left), (svc.supply (w.issued + 1), right)].drop taken)) := by
  obtain ⟨left, s, right, s', hleft, hright, rfl, rfl, rfl⟩ := h₂.two_parses
  have hne := hfresh.ne (Nat.lt_succ_self w.issued) (Nat.lt_succ_self _)
  have hfirst := h.not_mem_supply hfresh (Nat.le_refl _) (by omega)
  have hsecond := h.not_mem_supply hfresh (Nat.le_succ _) (Nat.lt_succ_self _)
  refine ⟨left, s, right, hleft, hright, ?_⟩
  match taken with
  | 0 => exact .refl _
  | 1 => exact insert_erase_other left right hne hfirst
  | 2 => exact (insert_two_erase left right hne hfirst hsecond).2.2

/-- What is left of two parses after the given requests, once some of their trees have been taken. Nothing
is left just if both have been. -/
theorem Runs.stranded (h : Runs svc (.new state) log w) (h' : Runs svc w log' w')
    (hfresh : svc.Fresh (w.issued + (waiting.filterMap Request.code?).length + 2))
    (hrequests : log'.map Exchange.request =
      waiting ++ [.parseCode before, .parseCode after] ++ ids.map .takeTree)
    (hlength : ids.length ≤ 2) (hgives : Gives (log ++ log') (log.length + waiting.length) ids) :
    ∃ log₁ w₁ left s right, Runs svc w log₁ w₁ ∧ log₁.map Exchange.request = waiting ∧
      svc.parse w₁.state before = .returned left s ∧ svc.parse s after = .returned right w'.state ∧
      w'.trees.Equiv (w₁.trees.insertMany ([(svc.supply w₁.issued, left),
        (svc.supply (w₁.issued + 1), right)].drop ids.length)) ∧
      ((∀ id ∈ w'.trees, id ∈ w₁.trees) ↔ ids.length = 2) := by
  obtain ⟨log₂, log₃, rfl, hlog₂, hlog₃⟩ := List.map_eq_append_iff.mp hrequests
  obtain ⟨w₂, hrun₂, hrun₃⟩ := runs_append_iff.mp h'
  obtain ⟨log₁, first, second, w₁, rfl, hlog₁, hrun₁, hparses⟩ := hrun₂.split_parses hlog₂
  have hids : ids = [first, second].take ids.length := by
    have hplace : log.length + waiting.length = (log ++ log₁).length := by
      rw [← hlog₁, List.length_map, List.length_append]
    rw [hplace, List.append_assoc, ← List.append_assoc] at hgives
    exact hgives.eq_take hlength
  have hrun := h.append hrun₁
  rw [← hrun₁.issued_of_requests hlog₁] at hfresh
  obtain ⟨left, s, right, hleft, hright, htable⟩ := hrun.two_forgotten hfresh hparses hlength
  rw [← hids, ← hrun₃.forget hlog₃] at htable
  have hstate : w'.state = w₂.state := by rw [hrun₃.forget hlog₃, state_forget]
  refine ⟨log₁, w₁, left, s, right, hrun₁, hlog₁, hleft, hstate ▸ hright, htable, ?_⟩
  simp only [htable.mem_iff, Std.HashMap.mem_insertMany_list]
  constructor
  · intro hall
    by_contra hfew
    refine hrun.not_mem_supply hfresh (Nat.le_succ _) (Nat.lt_succ_self _) (hall _ (.inr ?_))
    obtain h0 | h1 : ids.length = 0 ∨ ids.length = 1 := by omega
    · simp [h0]
    · simp [h1]
  · intro hboth
    simp [hboth]

end Worker

/-! ## What has been sent -/

namespace Host

variable {σ : Type} {svc : Service σ} {state : σ} {h : Host σ} {log log' : List Exchange}
  {waiting : List Request}

theorem isSome_of_advance {n : Nat} (hw : (h.advance svc n).worker.isSome) : h.worker.isSome := by
  induction n generalizing h with
  | zero => exact hw
  | succ n ih =>
    have hstep := ih hw
    cases hworker : h.worker with
    | none => simp [Host.step, hworker] at hstep
    | some w => rfl

theorem Proceeds.running (hp : Proceeds svc state log waiting log' h) (hw : h.worker.isSome) :
    ∃ waiting' w, waiting = log'.map Exchange.request ++ waiting' ∧
      h.Running svc state (log ++ log') waiting' w := by
  obtain ⟨waiting', hwaiting, ⟨w, hr⟩ | ⟨-, hs, -⟩⟩ := hp
  · exact ⟨waiting', w, hwaiting, hr⟩
  · simp [hs.worker] at hw

end Host

namespace Client

variable {σ α β : Type} {svc : Service σ} {state : σ} {h h' : Host σ} {w w' : Worker σ}
  {log log' : List Exchange} {waiting : List Request} {t : Ticket} {code : String} {e : ServiceError}

/-- A computation in two parts fails in the first or in the second. -/
theorem bind_failed {c : Client σ α} {f : α → Client σ β} (hc : (c >>= f) h = (.error e, h')) :
    c h = (.error e, h') ∨ ∃ a h₁, c h = (.ok a, h₁) ∧ f a h₁ = (.error e, h') := by
  cases hresult : c h with
  | mk result h₁ =>
    cases result with
    | ok a =>
      rw [bind_ok hresult] at hc
      exact .inr ⟨a, h₁, rfl, hc⟩
    | error e' =>
      rw [bind_error hresult] at hc
      cases hc
      exact .inl rfl

/-- What only looks at a result leaves the host as it is after the computation before. -/
theorem host_bind {c : Client σ α} {f : α → Client σ β} (hf : ∀ a h, (f a h).2 = h) :
    ((c >>= f) h).2 = (c h).2 := by
  cases hc : c h with
  | mk result h' =>
    cases result with
    | ok a => rw [bind_ok hc, hf]
    | error e => rw [bind_error hc]

theorem host_takeTree (hr : h.Running svc state log waiting w) (id : Handle) :
    ∃ log', Host.Proceeds svc state log (waiting ++ [.takeTree id]) log'
      ((takeTree svc id >>= known id) h).2 := by
  have hknown : ∀ found (h : Host σ), (known id found h).2 = h := by
    intro found h
    cases found <;> rfl
  obtain ⟨h₁, hsend, hr₁, -⟩ := send_running hr (.takeTree id)
  rw [host_bind hknown, takeTree, host_bind fun _ _ => rfl, request, bind_ok hsend]
  obtain ⟨log', h', hp, ⟨x, -, hwait⟩ | ⟨e, hwait, -⟩⟩ :=
    wait_cases hr₁ (log.length + waiting.length)
  · exact ⟨log', by rwa [hwait]⟩
  · exact ⟨log', by rwa [hwait]⟩

/-- When taking the tree of a parse fails, it has not been asked for, or by the handle that the parse
gave. -/
theorem takeParsed_failed (hr : h.Running svc state log waiting w)
    (ht : (log.map Exchange.request ++ waiting)[t]? = some (.parseCode code))
    (htake : takeParsed svc t h = (.error e, h')) (hw : h'.worker.isSome) :
    ∃ log' waiting' w', h'.Running svc state (log ++ log') waiting' w' ∧
      (log'.map Exchange.request ++ waiting' = waiting ∨
        ∃ id, (log ++ log')[t]? = some ⟨.parseCode code, .parsed id⟩ ∧
          log'.map Exchange.request ++ waiting' = waiting ++ [.takeTree id]) := by
  obtain ⟨log₁, h₁, hp, ⟨x, hx, hwait⟩ | ⟨e', hwait, -⟩⟩ := wait_cases hr t
  · obtain ⟨id, rfl⟩ := exchange_at hp ht hx
    have hrest : takeParsed svc t h = (takeTree svc id >>= known id) h₁ := bind_ok hwait
    rw [hrest] at htake
    obtain ⟨waiting₁, rfl, ⟨w₁, hr₁⟩ | ⟨-, hs, -⟩⟩ := hp
    · obtain ⟨log₂, hp₂⟩ := host_takeTree hr₁ id
      rw [htake] at hp₂
      obtain ⟨waiting₂, w₂, hwaiting₂, hr₂⟩ := hp₂.running hw
      refine ⟨log₁ ++ log₂, waiting₂, w₂, by rwa [← List.append_assoc], .inr ⟨id, ?_, ?_⟩⟩
      · rw [← List.append_assoc,
          List.getElem?_append_left (List.getElem?_eq_some_iff.mp hx).1, hx]
      · rw [List.map_append, List.append_assoc, ← hwaiting₂, List.append_assoc]
    · have htree : takeTree svc id h₁ = (.error .disconnected, h₁) :=
        bind_error (request_stopped hs (.takeTree id))
      rw [bind_error htree] at htake
      cases htake
      simp [hs.worker] at hw
  · have hrest : takeParsed svc t h = (.error e', h₁) := bind_error hwait
    rw [hrest] at htake
    cases htake
    obtain ⟨waiting₁, w₁, hwaiting₁, hr₁⟩ := hp.running hw
    exact ⟨log₁, waiting₁, w₁, hr₁, .inl hwaiting₁.symm⟩

/-- When a tree has been taken, all that waited has been answered. -/
theorem takeParsed_done (hr : h.Running svc state log waiting w)
    (ht : (log.map Exchange.request ++ waiting)[t]? = some (.parseCode code)) {trees : List ParseTree}
    (htake : takeParsed svc t h = (.ok trees, h')) :
    ∃ log' x id w', log'.map Exchange.request = waiting ∧ x.request = .takeTree id ∧
      (log ++ log')[t]? = some ⟨.parseCode code, .parsed id⟩ ∧
      h'.Running svc state (log ++ (log' ++ [x])) [] w' := by
  rcases takeParsed_cases hr ht with ⟨e, h₁, hfailed, -⟩ |
    ⟨log', id, found, w', h₁, hknown, hlog', hid, hr'⟩
  · rw [hfailed] at htake
    cases htake
  · rw [hknown] at htake
    cases found <;> cases htake
    exact ⟨log', _, id, w', hlog', rfl, hid, by rwa [← List.append_assoc]⟩

variable {before after : String}

/-- When asking for a pair fails, both texts have been sent for parsing, and some of the trees have been
asked for by the handles that the parses gave, the first before the second. -/
theorem buildPair_failed (hr : h.Running svc state log waiting w)
    (hbuild : buildPair svc before after h = (.error e, h')) (hw : h'.worker.isSome) :
    ∃ log' waiting' w', ∃ ids : List Handle, h'.Running svc state (log ++ log') waiting' w' ∧
      ids.length ≤ 2 ∧ log'.map Exchange.request ++ waiting' =
        waiting ++ [.parseCode before, .parseCode after] ++ ids.map .takeTree ∧
      Gives (log ++ log') (log.length + waiting.length) ids := by
  obtain ⟨h₁, hr₁, -, hsent⟩ := buildPair_sent hr before after
  rw [hsent] at hbuild
  have ht : (log.map Exchange.request ++ (waiting ++ [.parseCode before, .parseCode after]))[
      log.length + waiting.length]? = some (.parseCode before) := by
    simp
  rcases bind_failed hbuild with htake | ⟨left, h₂, htake, hrest⟩
  · obtain ⟨log', waiting', w', hr', hnone | ⟨first, hfirst, hone⟩⟩ :=
      takeParsed_failed hr₁ ht htake hw
    · exact ⟨log', waiting', w', [], hr', by simp, by simp [hnone], .nil _ _⟩
    · exact ⟨log', waiting', w', [first], hr', by simp, by simp [hone], .cons hfirst (.nil _ _)⟩
  · obtain ⟨log₁, x, first, w₂, hlog₁, hx, hfirst, hr₂⟩ := takeParsed_done hr₁ ht htake
    have ht₂ : ((log ++ (log₁ ++ [x])).map Exchange.request ++ [])[
        log.length + waiting.length + 1]? = some (.parseCode after) := by
      simp [hlog₁, Nat.add_assoc]
    rcases bind_failed hrest with htake₂ | ⟨right, h₃, -, hreturn⟩
    · obtain ⟨log₂, waiting₂, w₃, hr₃, hlog₂⟩ := takeParsed_failed hr₂ ht₂ htake₂ hw
      rw [List.append_assoc, List.append_assoc] at hr₃ hlog₂
      have hfirst' : (log ++ (log₁ ++ ([x] ++ log₂)))[log.length + waiting.length]? =
          some ⟨.parseCode before, .parsed first⟩ := by
        rw [← List.append_assoc,
          List.getElem?_append_left (List.getElem?_eq_some_iff.mp hfirst).1, hfirst]
      rcases hlog₂ with hnone | ⟨second, hsecond, hone⟩
      · exact ⟨_, waiting₂, w₃, [first], hr₃, by simp, by simp [hlog₁, hx, hnone],
          .cons hfirst' (.nil _ _)⟩
      · exact ⟨_, waiting₂, w₃, [first, second], hr₃, by simp, by simp [hlog₁, hx, hone],
          .cons hfirst' (.cons hsecond (.nil _ _))⟩
    · cases hreturn

/-! ## What is left behind -/

/-- When a caller gives up asking for a pair while the worker runs on, and everything that it had sent by
then has been answered: it was told that the time is over; the parser was called on the one text and then
on the other; and of the two trees the worker keeps those that the caller had not asked for, next to what
the requests before have left. So nothing of the pair is left just if both had been asked for. -/
theorem buildPair_failed_strands (hh : h.Reachable svc) (hfresh : svc.Fresh (h.handles + 2))
    (hbuild : buildPair svc before after h = (.error e, h')) {n : Nat}
    (hw : (h'.advance svc n).worker = some w') (hqueue : (h'.advance svc n).queue = []) :
    e = .timeout svc.timeout ∧
    ∃ left s right, ∃ w₁ : Worker σ, ∃ taken ≤ 2,
      (h.settle svc).worker = some w₁ ∧ (h.settle svc).queue = [] ∧
      svc.parse w₁.state before = .returned left s ∧
      svc.parse s after = .returned right w'.state ∧
      h'.sent = h.sent + 2 + taken ∧
      w'.trees.Equiv (w₁.trees.insertMany ([(svc.supply w₁.issued, left),
        (svc.supply (w₁.issued + 1), right)].drop taken)) ∧
      ((∀ id ∈ w'.trees, id ∈ w₁.trees) ↔ taken = 2) := by
  have hsome : h'.worker.isSome := Host.isSome_of_advance (by rw [hw]; rfl)
  obtain ⟨state, log, ⟨waiting, w, hr⟩ | hs⟩ := hh.accounted
  · have hhandles : h.handles = w.issued + (waiting.filterMap Request.code?).length := by
      rw [Host.handles, Host.texts, hr.worker, hr.queue, Host.map_snd_ticketed]
      rfl
    rw [hhandles] at hfresh
    have htime : e = .timeout svc.timeout := by
      rcases buildPair_cases hr hfresh before after with ⟨e', h'', hfailed, hinterrupted⟩ |
        ⟨_, _, _, _, _, _, _, -, -, -, -, -, -, hdone⟩
      · rw [hbuild] at hfailed
        cases hfailed
        rcases hinterrupted with ⟨htime, -⟩ | ⟨-, hnone, -⟩
        · exact htime
        · simp [hnone] at hsome
      · rw [hbuild] at hdone
        cases hdone
    obtain ⟨log', waiting', w₂, ids, hr₂, hlength, hrequests, hgives⟩ := buildPair_failed hr hbuild hsome
    obtain ⟨log₃, hp⟩ := hr₂.advance n
    obtain ⟨waiting₃, w₃, rfl, hr₃⟩ := hp.running (by rw [hw]; rfl)
    obtain rfl : w₃ = w' := Option.some.inj (hr₃.worker.symm.trans hw)
    obtain rfl : waiting₃ = [] := by
      have hcount := congrArg List.length (hr₃.queue.symm.trans hqueue)
      rwa [Host.length_ticketed, List.length_nil, List.length_eq_zero_iff] at hcount
    rw [List.append_nil, ← List.map_append] at hrequests
    rw [List.append_assoc] at hr₃
    have hgives' := hgives.append log₃
    rw [List.append_assoc] at hgives'
    obtain ⟨log₁, w₁, left, s, right, hrun₁, hlog₁, hleft, hright, htable, hall⟩ :=
      hr.run.stranded (hr.run.resume hr₃.run) hfresh hrequests hlength hgives'
    have hsettled : (h.settle svc).Running svc state (log ++ log₁) [] w₁ :=
      hr.advance_all hrun₁ hlog₁ (by simp [hr.queue])
    refine ⟨htime, left, s, right, w₁, ids.length, hlength, hsettled.worker, hsettled.queue, hleft,
      hright, ?_, htable, hall⟩
    have hcount := congrArg List.length hrequests
    simp only [List.length_append, List.length_map, List.length_cons, List.length_nil] at hcount
    rw [hr₂.sent, hr.sent, List.length_append, List.append_nil, List.length_map]
    omega
  · rw [buildPair_stopped hs] at hbuild
    cases hbuild
    simp [hs.worker] at hsome

/-- A caller who gives up at the second wait, behind another parse, leaves the second tree. -/
theorem buildPair_failed_strands_second :
    ∃ (svc : Service Nat) (h h' : Host Nat) (w₁ w' : Worker Nat), h.Reachable svc ∧
      svc.Fresh (h.handles + 2) ∧ h.queue.map Prod.snd = [.parseCode "x"] ∧
      buildPair svc "a" "b" h = (.error (.timeout svc.timeout), h') ∧
      (h'.advance svc 1).worker = some w' ∧ (h'.advance svc 1).queue = [] ∧
      (h.settle svc).worker = some w₁ ∧
      w'.trees.Equiv (w₁.trees.insert ⟨2⟩ [.atom ⟨[], "b", .normal⟩]) := by
  let svc : Service Nat :=
    ⟨fun n code => .returned [.atom ⟨[], code, .normal⟩] (n + 1), fun i => ⟨BitVec.ofNat 128 i⟩,
      Duration.ofMillis 1⟩
  let h : Host Nat := { ((Host.new 0).send (.parseCode "x")).2 with pace := [3, 0] }
  let h₂ : Host Nat := ((h.send (.parseCode "a")).2.send (.parseCode "b")).2
  let h₃ : Host Nat := (h₂.elapse svc).send (.takeTree ⟨1⟩) |>.2
  have hfresh : svc.Fresh (h.handles + 2) := by
    unfold Service.Fresh
    decide
  let replies : Std.HashMap Ticket Reply :=
    (∅ : Std.HashMap Ticket Reply).insert 0 (.parsed ⟨0⟩) |>.insert 1 (.parsed ⟨1⟩)
      |>.insert 2 (.parsed ⟨2⟩)
  have hfirst : wait svc 1 h₂ = (.ok (.parsed ⟨1⟩), h₂.elapse svc) := by
    have hreply : (h₂.elapse svc).replies[1]? = some (.parsed ⟨1⟩) := by
      change replies[1]? = _
      rw [Std.HashMap.getElem?_insert, Std.HashMap.getElem?_insert_self]
      rfl
    simp only [wait, Host.wait, hreply]
  have hsecond : wait svc 3 h₃ = (.error (.timeout svc.timeout), h₃.elapse svc) := by
    have hreply : (h₃.elapse svc).replies[3]? = none := by
      change replies[3]? = _
      simp [replies]
    simp only [wait, Host.wait, hreply]
    rfl
  have hask : takeTree svc ⟨1⟩ (h₂.elapse svc) = (.error (.timeout svc.timeout), h₃.elapse svc) :=
    bind_error ((bind_ok rfl).trans hsecond)
  have htake : takeParsed svc 1 h₂ = (.error (.timeout svc.timeout), h₃.elapse svc) :=
    (bind_ok hfirst).trans ((bind_ok rfl).trans (bind_error hask))
  have hbuild : buildPair svc "a" "b" h = (.error (.timeout svc.timeout), h₃.elapse svc) :=
    (bind_ok rfl).trans ((bind_ok rfl).trans (bind_error htake))
  obtain ⟨-, left, s, right, w₁, taken, -, hw₁, -, hleft, hright, hsent, htable, -⟩ :=
    buildPair_failed_strands (.pace _ (.send _ (.new 0))) hfresh hbuild (n := 1) rfl rfl
  refine ⟨svc, h, _, w₁, _, .pace _ (.send _ (.new 0)), hfresh, rfl, hbuild, rfl, rfl, hw₁, ?_⟩
  obtain rfl : taken = 1 := by
    have hcount : 4 = 1 + 2 + taken := hsent
    omega
  cases hw₁
  cases hleft
  cases hright
  exact htable

/-- A caller who gives up at the first wait leaves two trees, where there was none before. -/
theorem buildPair_strands_both :
    ∃ (svc : Service Nat) (h h' : Host Nat) (w w' : Worker Nat), h.Reachable svc ∧
      svc.Fresh (h.handles + 2) ∧ h.worker = some w ∧ h.queue = [] ∧
      buildPair svc "a" "b" h = (.error (.timeout svc.timeout), h') ∧
      (h'.advance svc 2).worker = some w' ∧ (h'.advance svc 2).queue = [] ∧
      w.trees.size = 0 ∧ w'.trees.size = 2 ∧ ∃ id ∈ w'.trees, id ∉ w.trees := by
  let svc : Service Nat :=
    ⟨fun n code => .returned [.atom ⟨[], code, .normal⟩] (n + 1), fun i => ⟨BitVec.ofNat 128 i⟩,
      Duration.ofMillis 1⟩
  let h : Host Nat := { Host.new 0 with pace := [0] }
  let h₂ : Host Nat := ((h.send (.parseCode "a")).2.send (.parseCode "b")).2
  have hfresh : svc.Fresh (h.handles + 2) := by
    unfold Service.Fresh
    decide
  have hwait : wait svc 0 h₂ = (.error (.timeout svc.timeout), h₂.elapse svc) := by
    have hnone : (h₂.elapse svc).replies[0]? = none := Std.HashMap.getElem?_empty
    simp only [wait, Host.wait, hnone]
    rfl
  have hbuild : buildPair svc "a" "b" h = (.error (.timeout svc.timeout), h₂.elapse svc) :=
    (bind_ok rfl).trans ((bind_ok rfl).trans (bind_error (bind_error hwait)))
  let trees : Std.HashMap Handle (List ParseTree) :=
    (∅ : Std.HashMap Handle (List ParseTree)).insert ⟨0⟩ [.atom ⟨[], "a", .normal⟩]
      |>.insert ⟨1⟩ [.atom ⟨[], "b", .normal⟩]
  refine ⟨svc, h, _, Worker.new 0, ⟨2, trees, 2⟩, .pace _ (.new 0), hfresh, rfl, rfl, hbuild, rfl, rfl,
    rfl, ?_, ⟨0⟩, ?_, ?_⟩
  · simp [trees, Std.HashMap.size_insert]
  · simp [trees]
  · exact Std.HashMap.not_mem_empty

end Client

end TwinForest
