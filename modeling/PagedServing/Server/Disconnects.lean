import PagedServing.Engine.Latency
import PagedServing.Server.Routing

/-! # Clients that go away

A handler that has gone is noticed at the first event for it: within that turn its request is
cancelled. Between two turns nothing has been routed in vain for a request that still runs.
-/

namespace PagedServing

open Scheduler LabelledLog Relation

namespace Session

variable {σ τ δ : Type} [IncrementalDecoder δ] [TokenizerTrait τ δ] {x : Setting τ}
  {answer : List TokenId → TokenId → Prop} {R : σ → Fed → Prop} {s s' : Session σ τ δ}
  {r : Request} {id : RequestId}

/-- Who waits or runs is of rank two or more. -/
theorem Inv.unfinished_iff (hi : s.Inv answer R x) (hr : r ∈ s.admitted) :
    s.engine.scheduler.Unfinished r.id ↔ 2 ≤ s.engine.rank r := by
  obtain ⟨fed, -, hall⟩ := hi.courses
  obtain ⟨w, hsteps, ht, -⟩ := hall r hr
  have hadmits := (hi.admits r hr).1
  have hw := hsteps.lawful hadmits (Course.lawful_start x answer r)
  have hwf := hi.sound.wf
  have hplace := ht.place
  rw [hplace.rank hwf]
  cases hat : w.place with
  | waiting d =>
      rw [hat] at hplace
      exact iff_of_true (unfinished_of_holds hwf hplace.1 (by rintro q ⟨⟩)) (Nat.le_add_left 2 _)
  | running seq d =>
      have hlive := (hat ▸ Place.Live.running seq d : w.place.Live r _ d).lt_rank hadmits hw
      rw [hat] at hplace hlive
      exact iff_of_true (unfinished_of_holds hwf hplace.1 (by rintro q ⟨⟩)) hlive.2
  | ended req d =>
      rw [hat] at hplace
      exact iff_of_false (fun h => h.2 (List.mem_map_of_mem hplace.1)) (by simp [Place.rank])
  | reported report =>
      rw [hat] at hplace
      exact iff_of_false (fun h => hplace.1 h.1) (by simp [Place.rank])

/-- Nobody who is through comes back. -/
theorem Inv.unfinished_of_rank_le (hi : s.Inv answer R x) (hi' : s'.Inv answer R x)
    (hr : r ∈ s.admitted) (hr' : r ∈ s'.admitted) (hle : s'.engine.rank r ≤ s.engine.rank r)
    (h : s'.engine.scheduler.Unfinished r.id) : s.engine.scheduler.Unfinished r.id :=
  (hi.unfinished_iff hr).2 (((hi'.unfinished_iff hr').1 h).trans hle)

theorem Stage.unfinished (h : Stage x answer R s s') (hi : s.Inv answer R x)
    (hid : id ∈ s.admitted.map (·.id)) (hopen : s'.engine.scheduler.Unfinished id) :
    s.engine.scheduler.Unfinished id := by
  obtain ⟨r, hr, rfl⟩ := List.mem_map.1 hid
  exact hi.unfinished_of_rank_le (hi.stage h) hr (h.admitted ▸ hr) (h.rank_le hi hr).1 hopen

theorem Inv.not_unfinished_of_reported (hi : s.Inv answer R x)
    (h : id ∈ s.reports.map (·.requestId)) : ¬ s.engine.scheduler.Unfinished id := fun hopen =>
  (List.nodup_append.1 (hi.places.nodup_iff.2 hi.once)).2.2 id hopen.1 id h rfl

variable [GPUExecutorTrait σ]

theorem Steady.unfinished_apply (h : s.Steady (fun _ _ => True) (fun _ _ => True) x)
    (hid : id ∈ s.admitted.map (·.id)) (op : EngineOp)
    (hopen : (s.apply op).engine.scheduler.Unfinished id) :
    s.engine.scheduler.Unfinished id := by
  have hA := Answering.any σ
  obtain ⟨r, hr, rfl⟩ := List.mem_map.1 hid
  by_cases hop : op = .stepEvents
  · subst hop
    have hstage := advance_stage hA h.inv h.settled
    have hmid := h.inv.stage hstage
    have hcollect := collect_stage hA hmid.sound hmid.idle hmid.setting
    replace hopen : s.step.engine.scheduler.Unfinished r.id := hopen
    rw [step_eq h.inv.sound] at hopen
    have hid' : r.id ∈ s.advance.admitted.map (·.id) := hstage.admitted ▸ hid
    exact hstage.unfinished h.inv hid (hcollect.unfinished hmid hid' hopen)
  · exact h.inv.unfinished_of_rank_le (h.apply hA op).inv hr ((s.prefix_apply op).1.subset hr)
      (apply_rank_le h.inv hr hop) hopen

theorem Steady.not_unfinished_cancel (h : s.Steady (fun _ _ => True) (fun _ _ => True) x) :
    ¬ (s.apply (.cancelRequest id)).engine.scheduler.Unfinished id := by
  change ¬ (s.engine.scheduler.failByRequestId id _).2.Unfinished id
  intro hopen
  rcases failByRequestId_cases h.inv.sound id _ with ⟨hno, heq⟩ | ⟨-, r, hcompleted⟩
  · exact hno (heq ▸ hopen)
  · exact hopen.2 (by rw [hcompleted]; simp)

end Session

namespace Server

variable {σ τ δ : Type} {v v' : Server σ τ δ} {s s' : Session σ τ δ} {client : ClientId}
  {id : RequestId} {log : List RequestEvent}

/-- Whoever still waits or runs has its waiter. -/
def Tended (v : Server σ τ δ) (s : Session σ τ δ) : Prop :=
  ∀ (client : ClientId) (id : RequestId), v.Owns client id →
    s.engine.scheduler.Unfinished id → v.waiters[id]? = some client

/-- The client of the request has gone. -/
def Deserted (v : Server σ τ δ) (client : ClientId) (id : RequestId) : Prop :=
  ∃ c promptTokens, v.clients[client]? = some c ∧ c.replies = [.ok ⟨id, promptTokens⟩] ∧
    c.events.connected = false

/-- While the request still waits or runs and is not about to be cancelled, nothing more than
`log` has been routed for it. -/
def Unheard (v : Server σ τ δ) (s : Session σ τ δ) (id : RequestId) (log : List RequestEvent) :
    Prop :=
  s.engine.scheduler.Unfinished id → id ∉ v.phase.gone → under id v.routed = log

/-! ## The client -/

theorem Deserted.owns (h : v.Deserted client id) : v.Owns client id :=
  h.imp fun _ => Exists.imp fun _ h => ⟨h.1, h.2.1⟩

/-- A reply stays, and who has gone does not come back. -/
structure Later (c c' : Client) : Prop where
  replies : c.replies ≠ [] → c'.replies = c.replies
  closed : c.events.connected = false → c'.events.connected = false

theorem ClientStep.later (hstep : v.ClientStep v') {c : Client}
    (hc : v.clients[client]? = some c) : ∃ c', v'.clients[client]? = some c' ∧ Later c c' := by
  cases hstep with
  | @receive k held events hclient hreceive =>
      refine ⟨_, withClient_eq_some.2 ⟨c, hc, rfl⟩, ?_⟩
      split
      next heq =>
        subst heq
        obtain rfl := Option.some.inj (hc.symm.trans hclient)
        exact ⟨fun _ => rfl, fun hclosed => (Channel.receive_eq_some hreceive).2.1.trans hclosed⟩
      next => exact ⟨fun _ => rfl, fun hclosed => hclosed⟩
  | disconnect =>
      refine ⟨_, withClient_eq_some.2 ⟨c, hc, rfl⟩, ?_⟩
      split
      next => exact ⟨fun _ => rfl, fun _ => rfl⟩
      next => exact ⟨fun _ => rfl, fun hclosed => hclosed⟩
  | close => exact ⟨c, hc, fun _ => rfl, fun hclosed => hclosed⟩

theorem later_submit {c : Client} (hc : v.clients[client]? = some c) (prompt : String)
    (params : GenerationParams) : (v.submit prompt params).clients[client]? = some c :=
  (List.getElem?_append_left (List.getElem?_eq_some_iff.1 hc).1).trans hc

theorem later_delivered {k : RequestId} {event : RequestEvent} {c : Client}
    (hclients : v'.clients = v.delivered k event) (hc : v.clients[client]? = some c) :
    ∃ c', v'.clients[client]? = some c' ∧ Later c c' := by
  rw [hclients]
  refine ⟨_, delivered_eq_some.2 ⟨c, hc, rfl⟩, ?_⟩
  split
  next => exact ⟨fun _ => rfl, fun hclosed => (Channel.connected_send _ _).trans hclosed⟩
  next => exact ⟨fun _ => rfl, fun hclosed => hclosed⟩

theorem Deserted.later (h : v.Deserted client id)
    (hlater : ∀ c, v.clients[client]? = some c →
      ∃ c', v'.clients[client]? = some c' ∧ Later c c') : v'.Deserted client id := by
  obtain ⟨c, n, hc, hreplies, hclosed⟩ := h
  obtain ⟨c', hc', hkept⟩ := hlater c hc
  refine ⟨c', n, hc', ?_, hkept.closed hclosed⟩
  rw [hkept.replies (by rw [hreplies]; exact List.cons_ne_nil _ _), hreplies]

/-! ## Routing -/

/-- A chunk of a request whose client has gone shows that it has. -/
theorem gone_sendChunk_self {locals : TurnLocals} {chunk : StepChunk}
    (h : v.Deserted client chunk.1) (hw : v.waiters[chunk.1]? = some client) :
    chunk.1 ∈ (v.sendChunk locals chunk).phase.gone := by
  obtain ⟨c, n, hc, -, hclosed⟩ := h
  rw [sendChunk]
  dsimp only
  rw [hw]
  dsimp only
  rw [sendEvent]
  simp [hc, hclosed, Phase.gone]

theorem gone_sendChunk_of_mem {locals : TurnLocals} {chunk : StepChunk}
    (h : id ∈ locals.disconnected) : id ∈ (v.sendChunk locals chunk).phase.gone := by
  rw [sendChunk]
  split
  · exact h
  · dsimp only [Phase.gone]
    split
    · exact h
    · exact List.mem_append_left _ h

variable [GPUExecutorTrait σ] [IncrementalDecoder δ] [TokenizerTrait τ δ] {x : Setting τ}

/-- No step of the loop revives a request. -/
theorem LoopStep.unfinished (hstep : v.LoopStep s v' s') (hf : v.Follows x s)
    (hid : id ∈ s.admitted.map (·.id)) (hopen : s'.engine.scheduler.Unfinished id) :
    s.engine.scheduler.Unfinished id := by
  have hsteady := hf.steady
  cases hstep with
  | @accept submission =>
      exact hsteady.unfinished_apply hid (.submitRequest submission.prompt submission.params) hopen
  | step => exact hsteady.unfinished_apply hid .stepEvents hopen
  | @cancel _ gone => exact hsteady.unfinished_apply hid (.cancelRequest gone) hopen
  | gaveUp _ _ hs' =>
      have hA := Answering.any σ
      have hfailed := hsteady.apply hA (.failPendingRequests InferenceEngine.stallReason)
      have hpre := (s.prefix_apply (.failPendingRequests InferenceEngine.stallReason)).1
      have hstage := Session.collect_stage hA hfailed.inv.sound hfailed.inv.idle hfailed.inv.setting
      rw [hs'] at hopen
      exact hsteady.unfinished_apply hid _
        (hstage.unfinished hfailed.inv ((hpre.map _).subset hid) hopen)
  | _ => exact hopen

theorem Tended.of_waiters (h : v.Tended s) (hd : v.Delivers s) (hf : v.Follows x s)
    (hstep : v.LoopStep s v' s') (howns : ∀ {client id}, v'.Owns client id → v.Owns client id)
    (hwaiters : ∀ {id : RequestId} {client : ClientId}, v.waiters[id]? = some client →
      s'.engine.scheduler.Unfinished id → v'.waiters[id]? = some client) : v'.Tended s' :=
  fun client id ho hopen =>
    hwaiters (h client id (howns ho)
      (hstep.unfinished hf (hd.owns_admitted (howns ho)) hopen)) hopen

/-- A waiter goes with a report or with a cancellation only. -/
theorem Tended.loop (h : v.Tended s) (hd : v.Delivers s) (hf : v.Follows x s)
    (hstep : v.LoopStep s v' s') : v'.Tended s' := by
  have hreported : ∀ {completed rest}, v.phase.reports = completed :: rest →
      ¬ s.engine.scheduler.Unfinished completed.requestId := fun hreports =>
    hf.steady.inv.not_unfinished_of_reported
      (List.mem_map_of_mem (hd.reported (hreports ▸ List.mem_cons_self)))
  have hkept := h.of_waiters hd hf hstep
  cases hstep with
  | @accept submission rest hphase hsub =>
      intro client id ho hopen
      have hi := hf.steady.inv
      have hnone : ∀ c, v.clients[submission.client]? = some c → c.replies = [] := fun c hc =>
        (hd.head_queued hsub hc).1
      have howns : ∀ {result client id}, (v.reply submission.client result).Owns client id ↔
          v.Owns client id ∨ submission.client = client ∧ ∃ n, result = .ok ⟨id, n⟩ :=
        owns_reply_iff hnone (hd.known submission (hsub ▸ List.mem_cons_self))
      have hold (ho : v.Owns client id) : v.waiters[id]? = some client :=
        h client id ho (hf.steady.unfinished_apply (hd.owns_admitted ho)
          (.submitRequest submission.prompt submission.params) hopen)
      rcases s.submit_spec hi submission.prompt submission.params with
        ⟨err, hrun, -⟩ | ⟨r, n, hrun, -, hfresh, -⟩
      · rw [← hf.engine] at hrun
        rw [admitSubmission, hrun] at ho ⊢
        rcases howns.1 ho with ho | ⟨-, _, ⟨⟩⟩
        exact hold ho
      · rw [← hf.engine] at hrun
        rw [admitSubmission, hrun] at ho ⊢
        rcases howns.1 ho with ho | ⟨rfl, _, ⟨⟩⟩
        · have hne : r.id ≠ id := fun heq => hfresh (heq ▸ hd.owns_admitted ho)
          exact (IdMap.get_insert_ne hne).trans (hold ho)
        · exact Std.ExtTreeMap.getElem?_insert_self
  | @send locals chunk rest =>
      obtain ⟨-, hclients, hwaiters⟩ := v.sendChunk_spec { locals with chunks := rest } chunk
      exact hkept (owns_delivered_iff hclients).1 fun hw _ => hwaiters ▸ hw
  | @cancel locals gone rest =>
      refine hkept (fun ho => ho) fun hw hopen => ?_
      exact (IdMap.get_erase_ne (by
        rintro rfl
        exact hf.steady.not_unfinished_cancel hopen)).trans hw
  | @dispatch locals completed rest hphase hcompleted =>
      obtain ⟨-, hclients, hwaiters⟩ := v.dispatchCompleted_spec completed
      have howns {client id} : (v.dispatchCompleted completed).Owns client id ↔
          v.Owns client id := owns_delivered_iff hclients
      refine hkept howns.1 fun hw hopen => (hwaiters _).trans ?_
      rw [if_neg, hw]
      rintro rfl
      exact hreported ((congrArg Phase.reports hphase).trans hcompleted) hopen
  | @route completed rest hphase =>
      obtain ⟨-, hclients, hwaiters⟩ := v.dispatchCompleted_spec completed
      have howns {client id} : (v.dispatchCompleted completed).Owns client id ↔
          v.Owns client id := owns_delivered_iff hclients
      refine hkept howns.1 fun hw hopen => (hwaiters _).trans ?_
      rw [if_neg, hw]
      rintro rfl
      exact hreported (congrArg Phase.reports hphase) hopen
  | _ => exact hkept (fun ho => ho) fun hw _ => hw

omit [IncrementalDecoder δ] in
theorem clients_admitSubmission (v : Server σ τ δ) (submission : Submission) :
    (v.admitSubmission submission).routed = v.routed ∧
      ∃ result, (v.admitSubmission submission).clients =
        (v.reply submission.client result).clients := by
  rw [admitSubmission]
  rcases v.engine.submitRequest submission.prompt submission.params with
    ⟨err | ⟨id, n⟩, e⟩ <;> exact ⟨rfl, _, rfl⟩

/-- The loop replies only to those it has not yet replied to. -/
theorem LoopStep.later (hstep : v.LoopStep s v' s') (hd : v.Delivers s) {c : Client}
    (hc : v.clients[client]? = some c) : ∃ c', v'.clients[client]? = some c' ∧ Later c c' := by
  cases hstep with
  | @accept submission rest hphase hsub =>
      obtain ⟨-, result, hclients⟩ :=
        { v with submissions := rest }.clients_admitSubmission submission
      have hreply : (v.reply submission.client result).clients[client]? = some (if
          submission.client = client then { c with replies := c.replies ++ [result] } else c) :=
        withClient_eq_some.2 ⟨c, hc, rfl⟩
      refine ⟨_, (congrArg (·[client]?) hclients).trans hreply, fun hreplied => ?_,
        fun hclosed => ?_⟩
      · rw [if_neg]
        rintro rfl
        exact hreplied (hd.head_queued hsub hc).1
      · split <;> exact hclosed
  | send => exact later_delivered (v.sendChunk_spec _ _).2.1 hc
  | dispatch => exact later_delivered (v.dispatchCompleted_spec _).2.1 hc
  | route => exact later_delivered (v.dispatchCompleted_spec _).2.1 hc
  | _ => exact ⟨c, hc, fun _ => rfl, fun hclosed => hclosed⟩

omit [GPUExecutorTrait σ] [IncrementalDecoder δ] [TokenizerTrait τ δ] in
/-- An event of another request changes nothing for this one. -/
theorem Unheard.of_routed (h : v.Unheard s id log) {k : RequestId} {event : RequestEvent}
    (hrouted : v'.routed = v.routed ++ [(k, event)])
    (hne : s.engine.scheduler.Unfinished id → k ≠ id)
    (hgone : id ∈ v.phase.gone → id ∈ v'.phase.gone) : v'.Unheard s id log := fun hopen hno => by
  rw [hrouted, under_append, under_singleton, if_neg (hne hopen), List.append_nil]
  exact h hopen fun hmem => hno (hgone hmem)

omit [GPUExecutorTrait σ] [IncrementalDecoder δ] [TokenizerTrait τ δ] in
theorem Unheard.of_calm (h : v.Unheard s id log) (hgone : v.phase.gone = [])
    (hrouted : v'.routed = v.routed)
    (hbefore : s'.engine.scheduler.Unfinished id → s.engine.scheduler.Unfinished id) :
    v'.Unheard s' id log := fun hopen _ => by
  rw [hrouted]
  refine h (hbefore hopen) ?_
  rw [hgone]
  exact List.not_mem_nil

/-- Nothing is routed for a deserted request that is not to be cancelled in the same turn. -/
theorem Unheard.loop (h : v.Unheard s id log) (hdeserted : v.Deserted client id)
    (htended : v.Tended s) (hd : v.Delivers s) (hf : v.Follows x s)
    (hstep : v.LoopStep s v' s') : v'.Unheard s' id log := by
  have hid := hd.owns_admitted hdeserted.owns
  have hbefore := fun hopen => hstep.unfinished hf hid hopen
  have hreported : ∀ {completed rest}, v.phase.reports = completed :: rest →
      s.engine.scheduler.Unfinished id → completed.requestId ≠ id := by
    rintro completed rest hreports hopen rfl
    exact hf.steady.inv.not_unfinished_of_reported
      (List.mem_map_of_mem (hd.reported (hreports ▸ List.mem_cons_self))) hopen
  cases hstep with
  | @accept submission rest hphase =>
      have hgone : v.phase.gone = [] := by
        rcases hphase with hphase | hphase <;> rw [hphase] <;> rfl
      exact h.of_calm hgone ({ v with submissions := rest }.clients_admitSubmission submission).1
        hbefore
  | @send locals chunk rest hphase =>
      obtain ⟨hrouted, -⟩ := v.sendChunk_spec { locals with chunks := rest } chunk
      by_cases hown : chunk.1 = id
      · subst hown
        exact fun hopen hno => absurd
          (gone_sendChunk_self hdeserted (htended _ _ hdeserted.owns hopen)) hno
      · refine h.of_routed hrouted (fun _ => hown) fun hmem => gone_sendChunk_of_mem ?_
        rw [hphase] at hmem
        exact hmem
  | sent hphase => exact fun hopen hno => h hopen (by rw [hphase]; exact hno)
  | @cancel locals gone rest hphase hids =>
      intro hopen hno
      refine h (hbefore hopen) ?_
      rw [hphase, Phase.gone, hids, List.mem_cons]
      rintro (rfl | hmem)
      · exact hf.steady.not_unfinished_cancel hopen
      · exact hno hmem
  | cancelled hphase hnone => exact h.of_calm (by rw [hphase]; exact hnone) rfl hbefore
  | @dispatch locals completed rest hphase hcompleted =>
      refine h.of_routed (v.dispatchCompleted_spec completed).1
        (hreported ((congrArg Phase.reports hphase).trans hcompleted)) ?_
      rw [hphase]
      rintro ⟨⟩
  | @route completed rest hphase =>
      refine h.of_routed (v.dispatchCompleted_spec completed).1
        (hreported (congrArg Phase.reports hphase)) ?_
      rw [hphase]
      rintro ⟨⟩
  | _ hphase => exact h.of_calm (by rw [hphase]; rfl) rfl hbefore

/-! ## Runs -/

/-- What the loop and the clients keep is kept on every run. -/
theorem Follows.run {P : Server σ τ δ → Session σ τ δ → Prop} (hf : v.Follows x s) (hP : P v s)
    (hsteps : ReflTransGen Step v v')
    (hloop : ∀ {v v' : Server σ τ δ} {s s' : Session σ τ δ}, v.Follows x s → P v s →
      v.LoopStep s v' s' → P v' s')
    (hclient : ∀ {v v' : Server σ τ δ} {s : Session σ τ δ}, P v s → ClientStep v v' → P v' s)
    (hsubmit : ∀ {v : Server σ τ δ} {s : Session σ τ δ} (prompt : String)
      (params : GenerationParams), v.accepting = true → P v s → P (v.submit prompt params) s) :
    ∃ s', v'.Follows x s' ∧ P v' s' := by
  induction hsteps with
  | refl => exact ⟨s, hf, hP⟩
  | tail _ hstep ih =>
    obtain ⟨s, hf, hP⟩ := ih
    cases hstep with
    | submit prompt params hopen => exact ⟨s, hf.of_engine rfl, hsubmit prompt params hopen hP⟩
    | quiet hquiet =>
      cases hquiet with
      | client hstep => exact ⟨s, hf.of_engine (by cases hstep <;> rfl), hclient hP hstep⟩
      | loop hstep =>
          obtain ⟨s', hstep⟩ := loopStep_of_eq hf hstep
          exact ⟨s', hf.loop hstep, hloop hf hP hstep⟩

/-- What the loop keeps for its clients, those that have gone included. -/
structure Tends (v : Server σ τ δ) (s : Session σ τ δ) : Prop where
  paced : v.Paced
  delivers : v.Delivers s
  tended : v.Tended s

omit [GPUExecutorTrait σ] [IncrementalDecoder δ] [TokenizerTrait τ δ] in
theorem owns_clientStep (hstep : v.ClientStep v') (ho : v'.Owns client id) : v.Owns client id := by
  cases hstep with
  | @receive _ _ events => exact (owns_withEvents_iff (f := fun _ => events)).1 ho
  | disconnect => exact (owns_withEvents_iff (f := Channel.disconnect)).1 ho
  | close => exact ho

theorem Tends.loop (h : v.Tends s) (hf : v.Follows x s) (hstep : v.LoopStep s v' s') :
    v'.Tends s' :=
  ⟨h.paced.loop hf hstep, h.delivers.loop hf h.paced hstep, h.tended.loop h.delivers hf hstep⟩

omit [GPUExecutorTrait σ] [IncrementalDecoder δ] [TokenizerTrait τ δ] in
theorem Tends.clientStep (h : v.Tends s) (hstep : v.ClientStep v') : v'.Tends s := by
  have htended : v'.Tended s := fun client id ho hopen => by
    have hw := h.tended client id (owns_clientStep hstep ho) hopen
    cases hstep <;> exact hw
  exact ⟨h.paced.clientStep hstep, h.delivers.clientStep hstep, htended⟩

omit [GPUExecutorTrait σ] [IncrementalDecoder δ] [TokenizerTrait τ δ] in
theorem Tends.submit (h : v.Tends s) (hopen : v.accepting = true) (prompt : String)
    (params : GenerationParams) : (v.submit prompt params).Tends s := by
  refine ⟨h.paced.submit hopen prompt params, h.delivers.submit prompt params, ?_⟩
  rintro client id ⟨c, n, hc, hreplies⟩ hunfinished
  rcases submit_eq_some hc with ⟨hc, -⟩ | ⟨-, rfl⟩
  · exact h.tended client id ⟨c, n, hc, hreplies⟩ hunfinished
  · cases hreplies

theorem Reachable.tends {config : EngineConfig} {tokenizer : τ} {gpuExecutor : σ}
    (h : Reachable config tokenizer gpuExecutor v) :
    ∃ s, v.Follows (Session.settingOf config tokenizer) s ∧ v.Tends s := by
  refine h.follows (P := Tends) ⟨paced_start _, delivers_start _ rfl, ?_⟩
    (fun hf ht hstep => ht.loop hf hstep) (fun ht hstep => ht.clientStep hstep)
    fun prompt params hopen ht => ht.submit hopen prompt params
  rintro client id ⟨c, n, hc, -⟩
  cases hc

/-- However a run goes on after the client of a request has gone: once an event of the request
has come up and the turn has dealt with its clients, the request neither waits nor runs. -/
theorem unfinished_of_deserted {config : EngineConfig} {tokenizer : τ} {gpuExecutor : σ}
    (h : Reachable config tokenizer gpuExecutor v) (hdeserted : v.Deserted client id)
    (hsteps : ReflTransGen Step v v') (hdone : v'.phase.gone = [])
    (hrouted : under id v'.routed ≠ under id v.routed) :
    ¬ v'.engine.scheduler.Unfinished id := by
  obtain ⟨s, hf, ht⟩ := h.tends
  obtain ⟨s', hf', -, -, hunheard⟩ := hf.run
    (P := fun v' s' => v'.Tends s' ∧ v'.Deserted client id ∧
      v'.Unheard s' id (under id v.routed))
    ⟨ht, hdeserted, fun _ _ => rfl⟩ hsteps
    (fun hf ⟨ht, hdeserted, hu⟩ hstep => ⟨ht.loop hf hstep,
      hdeserted.later fun _ hc => hstep.later ht.delivers hc,
      hu.loop hdeserted ht.tended ht.delivers hf hstep⟩)
    (fun ⟨ht, hdeserted, hu⟩ hstep => ⟨ht.clientStep hstep,
      hdeserted.later fun _ hc => hstep.later hc, by cases hstep <;> exact hu⟩)
    fun prompt params hopen ⟨ht, hdeserted, hu⟩ => ⟨ht.submit hopen prompt params,
      hdeserted.later fun c hc => ⟨c, later_submit hc prompt params, fun _ => rfl, fun h => h⟩, hu⟩
  rw [hf'.engine]
  exact fun hopen => hrouted (hunheard hopen (by rw [hdone]; exact List.not_mem_nil))

theorem run_of_loopSteps {n : Nat} (h : loopSteps n v = some v') : ReflTransGen Step v v' := by
  induction n generalizing v with
  | zero => exact Option.some.inj h ▸ .refl
  | succ n ih =>
    obtain ⟨next, hnext, hrun⟩ := Option.bind_eq_some_iff.1 h
    exact (ReflTransGen.single (.quiet (.loop hnext))).trans (ih hrun)

/-- A request that is to run for four steps. -/
def longServer : Server (FunctionBackend Session.stopAtFour) SimpleTokenizer SimpleDecoder :=
  (start (Session.new Session.smallConfig SimpleTokenizer.new ⟨fun _ => []⟩).engine).submit "a"
    { maxTokens := 4 }

/-- The first client goes. -/
def leave (v : Server σ τ δ) : Server σ τ δ :=
  v.withClient 0 fun c => { c with events := c.events.disconnect }

/-- The client goes before its first chunk has been sent, and is cancelled in that turn. -/
theorem unfinished_of_deserted_long :
    ∃ v v', loopSteps 3 longServer = some v ∧ v.engine.scheduler.numActiveSequences = 1 ∧
      loopSteps 4 v.leave = some v' ∧ ¬ v'.engine.scheduler.Unfinished 1 := by
  have hvalid : Session.smallConfig.validate = .ok () := by decide +kernel
  have hrun : (loopSteps 3 longServer).map (fun v =>
      (v.engine.scheduler.numActiveSequences,
        v.clients.map fun c => (c.replies, c.events.connected))) =
      some (1, [([.ok ⟨1, 3⟩], true)]) := by
    decide +kernel
  have hafter : ((loopSteps 3 longServer).bind fun v => (loopSteps 4 v.leave).map fun v' =>
      (v'.phase.gone, (under 1 v.leave.routed).length, (under 1 v'.routed).length)) =
      some ([], 0, 1) := by
    decide +kernel
  obtain ⟨v, hv, hafter⟩ := Option.bind_eq_some_iff.1 hafter
  obtain ⟨v', hv', hafter⟩ := Option.map_eq_some_iff.1 hafter
  obtain ⟨hgone, hafter⟩ := Prod.mk.inj hafter
  obtain ⟨hbefore, hafter⟩ := Prod.mk.inj hafter
  rw [hv] at hrun
  obtain ⟨hactive, hclients⟩ := Prod.mk.inj (Option.some.inj hrun)
  obtain ⟨c, hc, hstate⟩ := List.map_eq_singleton_iff.1 hclients
  obtain ⟨hreplies, hconnected⟩ := Prod.mk.inj hstate
  have hclient : v.clients[0]? = some c := by rw [hc]; rfl
  have hreachable := ((Reachable.start hvalid).step
    (.submit "a" { maxTokens := 4 } rfl (by decide))).loopSteps hv
  have hleft := hreachable.step (.quiet (.client (.disconnect hclient hconnected)))
  have hdeserted : v.leave.Deserted 0 1 :=
    ⟨{ c with events := c.events.disconnect }, 3, withClient_eq_some.2 ⟨c, hclient, rfl⟩,
      hreplies, rfl⟩
  refine ⟨v, v', hv, hactive, hv', ?_⟩
  refine unfinished_of_deserted hleft hdeserted (run_of_loopSteps hv') hgone fun heq => ?_
  rw [heq] at hafter
  exact absurd (hbefore.symm.trans hafter) Nat.zero_ne_one

end Server

end PagedServing
