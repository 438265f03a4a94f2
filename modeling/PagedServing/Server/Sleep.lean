import PagedServing.Server.Routing

/-! # Going to sleep

The loop waits for a submission when nothing is pending or active, whatever the scheduler has
in its buffer of ended requests. A step leaves that buffer empty; the cancellation of a
disconnected client comes after the step.
-/

namespace PagedServing

open Relation

/-- What neither waits nor runs has ended. -/
theorem Scheduler.ids_eq_nil {s : Scheduler} (hidle : s.hasPendingWork = false)
    (hdrained : s.completedRequests = []) : s.ids = [] := by
  refine List.eq_nil_iff_forall_not_mem.2 fun id hid => ?_
  have hopen : s.Unfinished id := ⟨hid, by rw [hdrained]; exact List.not_mem_nil⟩
  rw [hopen.hasPendingWork] at hidle
  cases hidle

/-- A cancellation ends the request if it is pending or active, and otherwise nothing. -/
theorem InferenceEngine.cancelRequest_cases {σ τ δ : Type} {e : InferenceEngine σ τ δ}
    (hs : e.scheduler.Sound) (id : RequestId) :
    (¬ e.scheduler.Unfinished id ∧ (e.cancelRequest id).2.scheduler = e.scheduler) ∨
      e.scheduler.Unfinished id ∧ ∃ r, (e.cancelRequest id).2.scheduler.completedRequests =
        e.scheduler.completedRequests ++ [(id, r)] :=
  Scheduler.failByRequestId_cases hs id _

namespace Server

variable {σ τ δ : Type} {v v' : Server σ τ δ} {s s' : Session σ τ δ} {taken : Prop}

/-- Everything that has ended has left the scheduler, the backend was told, the metrics that
were published last have counted it, and its decoder is gone. -/
structure WoundUp (v : Server σ τ δ) : Prop where
  drained : v.engine.scheduler.completedRequests = []
  told : ∀ (client : ClientId) (c : Client) (a : Admission), v.clients[client]? = some c →
    c.replies = [.ok a] → a.requestId ∈ finishedIds v.engine.executionPipeline.calls
  counted : v.metrics.completedRequests + v.metrics.failedRequests = v.engine.totalRequests
  dropped : v.engine.decoders = ∅

/-- The metrics were published after the counters last moved. -/
def Published (v : Server σ τ δ) : Prop :=
  v.metrics.completedRequests = v.engine.completedRequestsCount ∧
    v.metrics.failedRequests = v.engine.failedRequestsCount

/-- The next step cancels the last request that is pending or active. -/
def TakesLast (v : Server σ τ δ) : Prop :=
  ∃ locals requestId rest, v.phase = .cancelling locals ∧
    locals.disconnected = requestId :: rest ∧ v.engine.scheduler.Unfinished requestId ∧
      ∀ id, v.engine.scheduler.Unfinished id → id = requestId

theorem not_takesLast (h : ∀ locals, v.phase ≠ .cancelling locals) : ¬ v.TakesLast :=
  fun ⟨locals, _, _, hphase, _⟩ => h locals hphase

variable [GPUExecutorTrait σ] [IncrementalDecoder δ] [TokenizerTrait τ δ]

/-- The runs of a server, and whether a disconnect has taken the last request since the loop
last looked for submissions. -/
inductive Run (config : EngineConfig) (tokenizer : τ) (gpuExecutor : σ) :
    Server σ τ δ → Prop → Prop
  | start (hvalid : config.validate = .ok ()) :
      Run config tokenizer gpuExecutor
        (start (.ofComponents config tokenizer (Scheduler.new config) gpuExecutor)) False
  | loop {v v' : Server σ τ δ} {taken : Prop} (h : Run config tokenizer gpuExecutor v taken)
      (hstep : v.loopStep = some v') :
      Run config tokenizer gpuExecutor v'
        (v.phase ≠ .recv ∧ v.phase ≠ .drain ∧ (taken ∨ v.TakesLast))
  | client {v v' : Server σ τ δ} {taken : Prop} (h : Run config tokenizer gpuExecutor v taken)
      (hstep : v.ClientStep v') : Run config tokenizer gpuExecutor v' taken
  | submit {v : Server σ τ δ} {taken : Prop} (h : Run config tokenizer gpuExecutor v taken)
      (prompt : String) (params : GenerationParams) (hopen : v.accepting = true)
      (hroom : v.submissions.length < submissionQueueCapacity) :
      Run config tokenizer gpuExecutor (v.submit prompt params) taken

variable {x : Setting τ} {config : EngineConfig} {tokenizer : τ} {gpuExecutor : σ}

theorem Run.reachable (h : Run config tokenizer gpuExecutor v taken) :
    Reachable config tokenizer gpuExecutor v := by
  induction h with
  | start hvalid => exact .start hvalid
  | loop _ hstep ih => exact ih.step (.quiet (.loop hstep))
  | client _ hstep ih => exact ih.step (.quiet (.client hstep))
  | submit _ prompt params hopen hroom ih => exact ih.step (.submit prompt params hopen hroom)

theorem Reachable.exists_run (h : Reachable config tokenizer gpuExecutor v) :
    ∃ taken, Run config tokenizer gpuExecutor v taken := by
  induction h with
  | start hvalid => exact ⟨_, .start hvalid⟩
  | step _ hstep ih =>
    obtain ⟨taken, hrun⟩ := ih
    cases hstep with
    | submit prompt params hopen hroom => exact ⟨_, hrun.submit prompt params hopen hroom⟩
    | quiet hquiet =>
      cases hquiet with
      | loop hstep => exact ⟨_, hrun.loop hstep⟩
      | client hstep => exact ⟨_, hrun.client hstep⟩

/-! ## The buffer of ended requests -/

/-- After a step only the cancellation of the last request leaves something in the buffer
while nobody is pending or active. -/
structure Attends (v : Server σ τ δ) (taken : Prop) : Prop where
  published : v.phase = .top ∨ v.phase = .recv → v.Published
  filled : v.engine.scheduler.completedRequests ≠ [] → v.phase = .drain ∨ v.phase = .returned ∨
    v.engine.scheduler.hasPendingWork = true ∨ taken
  taken : taken → v.engine.scheduler.completedRequests ≠ []

omit [GPUExecutorTrait σ] [IncrementalDecoder δ] [TokenizerTrait τ δ] in
theorem Attends.of_same (h : v.Attends taken) (hengine : v'.engine = v.engine)
    (hmetrics : v'.metrics = v.metrics) (hphase : v'.phase = v.phase) : v'.Attends taken := by
  obtain ⟨hpublished, hfilled, htaken⟩ := h
  refine ⟨fun hquiet => ?_, ?_, hengine ▸ htaken⟩
  · rw [Published, hengine, hmetrics]
    exact hpublished (hphase ▸ hquiet)
  · rw [hengine, hphase]
    exact hfilled

omit [GPUExecutorTrait σ] [IncrementalDecoder δ] [TokenizerTrait τ δ] in
/-- A step that leaves the engine alone. -/
private theorem Attends.next (h : v.Attends taken) (hengine : v'.engine = v.engine)
    (hopen : v.phase ≠ .recv ∧ v.phase ≠ .drain ∧ v.phase ≠ .returned) (hno : ¬ v.TakesLast)
    (hpublished : v'.phase = .top ∨ v'.phase = .recv → v'.Published) :
    v'.Attends (v.phase ≠ .recv ∧ v.phase ≠ .drain ∧ (taken ∨ v.TakesLast)) := by
  refine ⟨hpublished, fun hfilled => ?_, fun ⟨_, _, htaken⟩ => ?_⟩
  · rw [hengine] at hfilled ⊢
    have hcause := ((h.filled hfilled).resolve_left hopen.2.1).resolve_left hopen.2.2
    exact .inr (.inr (hcause.imp_right fun htaken => ⟨hopen.1, hopen.2.1, .inl htaken⟩))
  · rw [hengine]
    exact h.taken (htaken.resolve_right hno)

theorem Attends.loop (h : v.Attends taken) (hf : v.Follows x s) (hpaced : v.Paced)
    (hstep : v.LoopStep s v' s') :
    v'.Attends (v.phase ≠ .recv ∧ v.phase ≠ .drain ∧ (taken ∨ v.TakesLast)) := by
  cases hstep with
  | work hphase => exact h.next rfl (by simp [hphase]) (not_takesLast (by simp [hphase])) (by simp)
  | wait hphase =>
      exact h.next rfl (by simp [hphase]) (not_takesLast (by simp [hphase]))
        fun _ => h.published (.inl hphase)
  | close hphase => exact ⟨by simp, fun _ => .inr (.inl rfl), fun hno => absurd hphase hno.1⟩
  | accept hphase =>
      refine ⟨by simp, fun _ => .inl rfl, fun hno => ?_⟩
      exact hphase.elim (fun hphase => absurd hphase hno.1) fun hphase => absurd hphase hno.2.1
  | step hphase _ hevents =>
      obtain ⟨events', -, hb⟩ :=
        Session.step_brings (Answering.any σ) hf.steady.inv hf.steady.settled
      exact ⟨by simp, fun hfilled => absurd hb.drained hfilled, fun hno => absurd hphase hno.2.1⟩
  | @send locals chunk rest hphase =>
      obtain ⟨disconnected, hsent⟩ := phase_sendChunk v { locals with chunks := rest } chunk
      exact h.next (engine_sendChunk _ _ _) (by simp [hphase])
        (not_takesLast (by simp [hphase])) (by simp [hsent])
  | sent hphase => exact h.next rfl (by simp [hphase]) (not_takesLast (by simp [hphase])) (by simp)
  | @cancel locals id rest hphase hids =>
      have hs := hf.steady.inv.sound
      rw [← hf.engine] at hs
      have hlooking : v.phase ≠ .recv ∧ v.phase ≠ .drain ∧ v.phase ≠ .returned := by simp [hphase]
      rcases InferenceEngine.cancelRequest_cases hs id with ⟨hno, hsame⟩ | ⟨hid, r, hended⟩
      · have hlast : ¬ v.TakesLast := by
          rintro ⟨locals', id', rest', hphase', hids', hid', -⟩
          rw [hphase] at hphase'
          cases hphase'
          rw [hids] at hids'
          exact hno (List.head_eq_of_cons_eq hids' ▸ hid')
        refine ⟨by simp, fun hfilled => .inr (.inr ?_), fun hcause => ?_⟩
        · have hold := h.filled (hsame ▸ hfilled)
          have hcause := (hold.resolve_left hlooking.2.1).resolve_left hlooking.2.2
          exact hcause.imp (fun hwork => hsame.symm ▸ hwork) fun htaken =>
            ⟨hlooking.1, hlooking.2.1, .inl htaken⟩
        · exact hsame.symm ▸ h.taken (hcause.2.2.resolve_right hlast)
      · refine ⟨by simp, fun _ => .inr (.inr ?_), fun _ => ?_⟩
        · by_cases hwork : (v.engine.cancelRequest id).2.scheduler.hasPendingWork = true
          · exact .inl hwork
          · refine .inr ⟨hlooking.1, hlooking.2.1, .inr ⟨locals, id, rest, hphase, hids, hid, ?_⟩⟩
            intro other hother
            by_contra hne
            exact hwork (Scheduler.failByRequestId_unfinished hs hother hne _).hasPendingWork
        · rw [show (v.cancelDisconnected id).engine.scheduler.completedRequests = _ from hended]
          simp
  | @cancelled locals hphase hnone =>
      refine h.next rfl (by simp [hphase]) ?_ (by simp)
      rintro ⟨locals', id, rest, hphase', hids, -⟩
      rw [hphase] at hphase'
      cases hphase'
      rw [hnone] at hids
      cases hids
  | dispatch hphase =>
      exact h.next (engine_dispatchCompleted _ _) (by simp [hphase])
        (not_takesLast (by simp [hphase])) (by simp)
  | dispatched hphase =>
      exact h.next rfl (by simp [hphase]) (not_takesLast (by simp [hphase])) (by simp)
  | progressed hphase =>
      exact h.next rfl (by simp [hphase]) (not_takesLast (by simp [hphase])) (by simp)
  | idled hphase =>
      exact h.next rfl (by simp [hphase]) (not_takesLast (by simp [hphase])) (by simp)
  | @gaveUp failed hphase _ hs' =>
      have hhopeless := hpaced.phase
      rw [hphase] at hhopeless
      have hopen := (hhopeless rfl).drained
      have hb := Session.failPending_brings (.any σ) hf.steady.inv (hf.engine ▸ hopen) _ hs'
      refine ⟨by simp, fun hfilled => absurd hb.drained hfilled, fun hno => ?_⟩
      rcases hno.2.2 with htaken | hlast
      · exact absurd hopen (h.taken htaken)
      · exact absurd hlast (not_takesLast (by simp [hphase]))
  | route hphase =>
      exact h.next (engine_dispatchCompleted _ _) (by simp [hphase])
        (not_takesLast (by simp [hphase])) (by simp)
  | routed hphase =>
      exact h.next rfl (by simp [hphase]) (not_takesLast (by simp [hphase])) (by simp)
  | publish hphase =>
      exact h.next rfl (by simp [hphase]) (not_takesLast (by simp [hphase])) fun _ => ⟨rfl, rfl⟩

theorem Run.attends (h : Run config tokenizer gpuExecutor v taken) : v.Attends taken := by
  induction h with
  | start _ => exact ⟨fun _ => ⟨rfl, rfl⟩, fun hfilled => absurd rfl hfilled, False.elim⟩
  | @loop v v' taken h hstep ih =>
    obtain ⟨s, hf, hpaced, -⟩ := h.reachable.delivers
    obtain ⟨s', hstep⟩ := loopStep_of_eq hf hstep
    exact ih.loop hf hpaced hstep
  | client _ hstep ih => cases hstep <;> exact ih.of_same rfl rfl rfl
  | submit _ prompt params _ _ ih => exact ih.of_same rfl rfl rfl

/-! ## What the loop knows when it sleeps -/

omit [GPUExecutorTrait σ] in
/-- With the buffer empty and nobody at work every admitted request has been accounted for. -/
theorem Delivers.woundUp (h : v.Delivers s) (hf : v.Follows x s) (hpublished : v.Published)
    (hidle : v.engine.scheduler.hasPendingWork = false)
    (hdrained : v.engine.scheduler.completedRequests = []) : v.WoundUp := by
  have hi := hf.steady.inv
  have hnone : s.engine.scheduler.ids = [] := hf.engine ▸ Scheduler.ids_eq_nil hidle hdrained
  have hplaces := hi.places
  rw [hnone, List.nil_append] at hplaces
  refine ⟨hdrained, fun client c a hc hreplies => ?_, ?_, ?_⟩
  · have hid := hplaces.mem_iff.2 (h.owns_admitted ⟨c, a.promptTokens, hc, hreplies⟩)
    rw [← hf.noticed.notices, Session.calls, ← hf.engine] at hid
    exact hid
  · have hcount := s.reports.length_eq_countP_add_countP (·.success)
    have hlength := hplaces.length_eq
    simp only [List.length_map, Bool.not_eq_true, Bool.decide_eq_false] at hcount hlength
    rw [hpublished.1, hpublished.2, hf.engine, hf.booked.completed, hf.booked.failed,
      hf.booked.total, ← hlength]
    exact hcount.symm
  · refine IdMap.eq_empty_iff.2 fun id => ?_
    rw [hf.engine]
    exact hi.decoder_none (by rw [hnone]; exact List.not_mem_nil)

/-- Whenever the loop waits for a submission, all that has ended is accounted for if and only if
no disconnect has taken the last request since the loop last took submissions. -/
theorem woundUp_iff_of_run (config : EngineConfig) (tokenizer : τ) (gpuExecutor : σ)
    (v : Server σ τ δ) (taken : Prop) (h : Run config tokenizer gpuExecutor v taken)
    (hphase : v.phase = .recv) : v.WoundUp ↔ ¬ taken := by
  obtain ⟨hpublished, hfilled, htaken⟩ := h.attends
  obtain ⟨s, hf, hpaced, hd⟩ := h.reachable.delivers
  have hidle := hpaced.phase
  rw [hphase] at hidle
  refine ⟨fun hw ht => htaken ht hw.drained, fun hno => ?_⟩
  refine hd.woundUp hf (hpublished (.inr hphase)) hidle ?_
  by_contra hne
  rcases hfilled hne with hcause | hcause | hcause | hcause
  · rw [hphase] at hcause
    cases hcause
  · rw [hphase] at hcause
    cases hcause
  · exact absurd hcause (Bool.eq_false_iff.1 hidle)
  · exact hno hcause

/-! ## A client that goes away -/

/-- The loop is blocked until somebody submits. -/
def isBlocked (v : Server σ τ δ) : Bool :=
  match v.phase with
  | .recv => v.loopStep.isNone
  | _ => false

theorem isBlocked_eq_true (h : v.isBlocked = true) : v.phase = .recv ∧ v.loopStep = none := by
  rw [isBlocked] at h
  split at h
  next hphase => exact ⟨hphase, Option.isNone_iff_eq_none.1 h⟩
  next => cases h

def loneServer : Server (FunctionBackend Session.stopAtFour) SimpleTokenizer SimpleDecoder :=
  (start (Session.new Session.smallConfig SimpleTokenizer.new ⟨fun _ => []⟩).engine).submit "a"
    { maxTokens := 3 }

/-- The only client goes away between its admission and its first chunk. -/
def abandonedServer :
    Option (Server (FunctionBackend Session.stopAtFour) SimpleTokenizer SimpleDecoder) :=
  (loopSteps 2 loneServer).bind fun v =>
    loopSteps 9 (v.withClient 0 fun c => { c with events := c.events.disconnect })

theorem reachable_loneServer :
    Reachable Session.smallConfig SimpleTokenizer.new ⟨fun _ => []⟩ loneServer :=
  (Reachable.start (by decide +kernel)).step (.submit "a" { maxTokens := 3 } rfl (by decide))

/-- The loop falls asleep with the cancelled request in the buffer. -/
theorem abandonedServer_spec :
    ∃ v, abandonedServer = some v ∧
      Reachable Session.smallConfig SimpleTokenizer.new ⟨fun _ => []⟩ v ∧ v.isBlocked = true ∧
        v.engine.scheduler.completedRequests.length = 1 := by
  have hbefore : (loopSteps 2 loneServer).map (fun v =>
      v.clients[0]?.map (·.events.connected)) = some (some true) := by decide +kernel
  have hafter : abandonedServer.map (fun v =>
      (v.isBlocked, v.engine.scheduler.completedRequests.length)) = some (true, 1) := by
    decide +kernel
  obtain ⟨v₁, hv₁, hclient⟩ := Option.map_eq_some_iff.1 hbefore
  obtain ⟨c, hc, hopen⟩ := Option.map_eq_some_iff.1 hclient
  obtain ⟨v, hv, hlast⟩ := Option.map_eq_some_iff.1 hafter
  obtain ⟨hblocked, hlength⟩ := Prod.mk.inj hlast
  refine ⟨v, hv, ?_, hblocked, hlength⟩
  rw [abandonedServer, hv₁] at hv
  exact ((reachable_loneServer.loopSteps hv₁).step
    (.quiet (.client (.disconnect hc hopen)))).loopSteps hv

theorem not_woundUp_abandoned :
    ¬ ∀ v : Server (FunctionBackend Session.stopAtFour) SimpleTokenizer SimpleDecoder,
      Reachable Session.smallConfig SimpleTokenizer.new ⟨fun _ => []⟩ v → v.phase = .recv →
        v.loopStep = none → v.WoundUp := by
  intro hall
  obtain ⟨v, -, hv, hblocked, hlength⟩ := abandonedServer_spec
  obtain ⟨hphase, hnone⟩ := isBlocked_eq_true hblocked
  have hdrained := (hall v hv hphase hnone).drained
  rw [hdrained] at hlength
  cases hlength

/-- The request of `abandonedServer` was the last one; left alone it is served. -/
theorem woundUp_iff_of_run_lone :
    (∃ v taken, abandonedServer = some v ∧
      Run Session.smallConfig SimpleTokenizer.new ⟨fun _ => []⟩ v taken ∧ v.phase = .recv ∧
        taken ∧ ¬ v.WoundUp) ∧
      ∃ v taken, loopSteps 18 loneServer = some v ∧
        Run Session.smallConfig SimpleTokenizer.new ⟨fun _ => []⟩ v taken ∧ v.phase = .recv ∧
          ¬ taken ∧ v.WoundUp := by
  constructor
  · obtain ⟨v, hv, hreachable, hblocked, hlength⟩ := abandonedServer_spec
    obtain ⟨taken, hrun⟩ := hreachable.exists_run
    have hphase := (isBlocked_eq_true hblocked).1
    have hiff := woundUp_iff_of_run _ _ _ v taken hrun hphase
    have hno : ¬ v.WoundUp := by
      intro hw
      rw [hw.drained] at hlength
      cases hlength
    exact ⟨v, taken, hv, hrun, hphase, by_contra fun htaken => hno (hiff.2 htaken), hno⟩
  · have hend : (loopSteps 18 loneServer).map (fun v =>
        (v.isBlocked, v.engine.scheduler.completedRequests.length)) = some (true, 0) := by
      decide +kernel
    obtain ⟨v, hv, hlast⟩ := Option.map_eq_some_iff.1 hend
    obtain ⟨hblocked, hlength⟩ := Prod.mk.inj hlast
    obtain ⟨taken, hrun⟩ := (reachable_loneServer.loopSteps hv).exists_run
    have hphase := (isBlocked_eq_true hblocked).1
    have hno : ¬ taken := fun htaken => hrun.attends.taken htaken (List.eq_nil_of_length_eq_zero hlength)
    exact ⟨v, taken, hv, hrun, hphase, hno, (woundUp_iff_of_run _ _ _ v taken hrun hphase).2 hno⟩

end Server

end PagedServing
