import PagedServing.Engine.Footprint
import PagedServing.Server.Routing
import PagedServing.Server.StreamOutcome

/-! # What the metrics endpoint shows

The loop publishes a snapshot of the engine at the end of each turn. Between two turns the
snapshot is the state of the engine, and its counters are those of the reports dispatched so far;
within a turn they lag behind.
-/

namespace PagedServing

open LabelledLog Relation

/-- The loop is between two turns, or has returned. -/
def Phase.Resting : Phase → Prop
  | .top | .recv | .drain | .returned => True
  | _ => False

theorem Phase.Resting.coming {phase : Phase} (h : phase.Resting) : phase.coming = [] := by
  cases phase <;> first | rfl | cases h

namespace InferenceEngine

variable {σ τ δ : Type} [GPUExecutorTrait σ] [TokenizerTrait τ δ]

/-- An admission shows in no published figure. -/
theorem update_submitRequest (e : InferenceEngine σ τ δ) (text : String)
    (params : GenerationParams) :
    SharedEngineMetrics.update (e.submitRequest text params).2.getMetrics =
      .update e.getMetrics := by
  rcases e.submitRequest_cases text params with
    ⟨err, sch, hrun, rfl | rfl⟩ | ⟨inputTokens, -, -, -, hrun⟩
  · rw [hrun]
  · rw [hrun]
    rfl
  · rw [hrun]
    rfl

end InferenceEngine

namespace Server

variable {σ τ δ : Type}

/-- The reports that the loop has dispatched, in order. -/
def dispatched (v : Server σ τ δ) : List CompletedRequest := (reportsIn v.routed).map Prod.snd

/-- What the published figures say. -/
structure Reflects (v : Server σ τ δ) : Prop where
  completed_le : v.metrics.completedRequests ≤ v.dispatched.countP (·.success)
  failed_le : v.metrics.failedRequests ≤ v.dispatched.countP (!·.success)
  tokens_le : v.metrics.totalTokensGenerated ≤ (v.dispatched.map (·.outputTokens.length)).sum
  current : v.phase.Resting → v.metrics = .update v.engine.getMetrics ∧
    v.metrics.completedRequests = v.dispatched.countP (·.success) ∧
    v.metrics.failedRequests = v.dispatched.countP (!·.success) ∧
    v.metrics.totalTokensGenerated = (v.dispatched.map (·.outputTokens.length)).sum

variable {v v' : Server σ τ δ} {s s' : Session σ τ δ}

theorem reportsIn_eventsOf (chunks : List StepChunk) (reports : List CompletedRequest) :
    (reportsIn (eventsOf chunks reports)).map Prod.snd = reports := by
  rw [eventsOf, reportsIn_append, List.map_append]
  have hchunks : reportsIn (chunks.map StepChunk.event) = [] := by
    simp [reportsIn, StepChunk.event, RequestEvent.asReport]
  have hreports : (reportsIn (reports.map CompletedRequest.event)).map Prod.snd = reports := by
    simp [reportsIn, CompletedRequest.event, RequestEvent.asReport, List.filterMap_map,
      Function.comp_def]
  rw [hchunks, hreports, List.map_nil, List.nil_append]

/-- Between two turns the dispatched reports are all reports there are. -/
theorem Delivers.dispatched_perm (h : v.Delivers s) (hnone : v.phase.coming = []) :
    v.dispatched.Perm s.reports := by
  have hrouted : v.routed.Perm s.events := perm_of_under fun id => by
    rw [← h.routed id, hnone, List.append_nil]
  have hreports := ((hrouted.filterMap fun p => p.2.asReport.map (Prod.mk p.1)).map Prod.snd)
  exact hreports.trans (reportsIn_eventsOf s.chunks s.reports ▸ List.Perm.refl _)

/-- The books of the engine are those of the dispatched reports. -/
theorem Follows.counters [IncrementalDecoder δ] [TokenizerTrait τ δ] {x : Setting τ}
    (hf : v.Follows x s) (hd : v.Delivers s) (hnone : v.phase.coming = []) :
    v.engine.getMetrics.completedRequests = v.dispatched.countP (·.success) ∧
      v.engine.getMetrics.failedRequests = v.dispatched.countP (!·.success) ∧
      v.engine.getMetrics.totalTokensGenerated =
        (v.dispatched.map (·.outputTokens.length)).sum := by
  have hperm := hd.dispatched_perm hnone
  have hbooked := hf.booked
  rw [Session.Booked, ← hf.engine] at hbooked
  exact ⟨hbooked.completed.trans (hperm.countP_eq _).symm,
    hbooked.failed.trans (hperm.countP_eq _).symm,
    hbooked.tokens.trans (hperm.map _).sum_eq.symm⟩

/-- Within a turn the figures stay, and more may be dispatched. -/
theorem Reflects.working (h : v.Reflects) (hmetrics : v'.metrics = v.metrics)
    (hrouted : v.routed <+: v'.routed) (hbusy : ¬ v'.phase.Resting) : v'.Reflects := by
  obtain ⟨more, hmore⟩ := hrouted
  have hdispatched : v'.dispatched = v.dispatched ++ (reportsIn more).map Prod.snd := by
    rw [dispatched, ← hmore, reportsIn_append, List.map_append]
    rfl
  refine ⟨?_, ?_, ?_, fun hrest => absurd hrest hbusy⟩
  · rw [hmetrics, hdispatched, List.countP_append]
    exact h.completed_le.trans (Nat.le_add_right _ _)
  · rw [hmetrics, hdispatched, List.countP_append]
    exact h.failed_le.trans (Nat.le_add_right _ _)
  · rw [hmetrics, hdispatched, List.map_append, List.sum_append]
    exact h.tokens_le.trans (Nat.le_add_right _ _)

/-- Between two turns nothing that is published changes. -/
theorem Reflects.resting (h : v.Reflects) (hrest : v.phase.Resting)
    (hmetrics : v'.metrics = v.metrics) (hrouted : v'.routed = v.routed)
    (hengine : SharedEngineMetrics.update v'.engine.getMetrics = .update v.engine.getMetrics) :
    v'.Reflects := by
  have hdispatched : v'.dispatched = v.dispatched := by rw [dispatched, hrouted, dispatched]
  refine ⟨?_, ?_, ?_, fun _ => ?_⟩
  · rw [hmetrics, hdispatched]
    exact h.completed_le
  · rw [hmetrics, hdispatched]
    exact h.failed_le
  · rw [hmetrics, hdispatched]
    exact h.tokens_le
  · rw [hmetrics, hdispatched, hengine]
    exact h.current hrest

/-- At the end of a turn the figures are brought up to date. -/
theorem Reflects.publish [IncrementalDecoder δ] [TokenizerTrait τ δ] {x : Setting τ}
    (hf : v.Follows x s) (hd : v.Delivers s) (hnone : v.phase.coming = []) :
    ({ v with metrics := .update v.engine.getMetrics, phase := .top } : Server σ τ δ).Reflects := by
  obtain ⟨hcompleted, hfailed, htokens⟩ := hf.counters hd hnone
  exact ⟨hcompleted.le, hfailed.le, htokens.le, fun _ => ⟨rfl, hcompleted, hfailed, htokens⟩⟩

theorem Reflects.clientStep (h : v.Reflects) (hstep : v.ClientStep v') : v'.Reflects := by
  cases hstep <;> exact ⟨h.completed_le, h.failed_le, h.tokens_le, h.current⟩

theorem Reflects.submit (h : v.Reflects) (prompt : String) (params : GenerationParams) :
    (v.submit prompt params).Reflects :=
  ⟨h.completed_le, h.failed_le, h.tokens_le, h.current⟩

theorem reflects_start [TokenizerTrait τ δ] (config : EngineConfig) (tokenizer : τ)
    (gpuExecutor : σ) :
    (start (Session.new config tokenizer gpuExecutor : Session σ τ δ).engine).Reflects := by
  have hunused : (Scheduler.new config).kvCache.getMemoryStats.usedBlocks = 0 :=
    (Scheduler.wf_new config).usedBlocks_eq_active rfl
  refine ⟨Nat.le_refl 0, Nat.le_refl 0, Nat.le_refl 0, fun _ => ⟨?_, rfl, rfl, rfl⟩⟩
  have hnone : kvUtilizationBp (Scheduler.new config).kvCache.getMemoryStats.utilization = 0 := by
    rw [MemoryStats.utilization_of_unused hunused]
    decide +kernel
  exact congrArg (fun bp => ({ kvUtilizationBp := bp } : SharedEngineMetrics)) hnone.symm

theorem metrics_sendChunk (v : Server σ τ δ) (locals : TurnLocals) (chunk : StepChunk) :
    (v.sendChunk locals chunk).metrics = v.metrics := by
  rw [sendChunk]
  split <;> rfl

theorem metrics_dispatchCompleted (v : Server σ τ δ) (completed : CompletedRequest) :
    (v.dispatchCompleted completed).metrics = v.metrics := by
  rw [dispatchCompleted]
  dsimp only
  split <;> rfl

variable [GPUExecutorTrait σ] [TokenizerTrait τ δ]

theorem admitSubmission_quiet (v : Server σ τ δ) (submission : Submission) :
    (v.admitSubmission submission).metrics = v.metrics ∧
      (v.admitSubmission submission).routed = v.routed := by
  rw [admitSubmission]
  rcases v.engine.submitRequest submission.prompt submission.params with
    ⟨err | ⟨id, n⟩, e⟩ <;> exact ⟨rfl, rfl⟩

variable [IncrementalDecoder δ] {x : Setting τ}

theorem Reflects.loop (h : v.Reflects) (hf : v.Follows x s) (hd : v.Delivers s)
    (hstep : v.LoopStep s v' s') : v'.Reflects := by
  cases hstep with
  | work hphase => exact h.resting (by simp [hphase, Phase.Resting]) rfl rfl rfl
  | wait hphase => exact h.resting (by simp [hphase, Phase.Resting]) rfl rfl rfl
  | close hphase => exact h.resting (by simp [hphase, Phase.Resting]) rfl rfl rfl
  | @accept submission rest hphase =>
      have hrest : v.phase.Resting := by
        rcases hphase with hphase | hphase <;> simp [hphase, Phase.Resting]
      obtain ⟨hmetrics, hrouted⟩ :=
        { v with submissions := rest }.admitSubmission_quiet submission
      refine h.resting hrest hmetrics hrouted ?_
      rw [engine_admitSubmission]
      exact InferenceEngine.update_submitRequest _ _ _
  | publish hphase => exact .publish hf hd (by simp [hphase, Phase.coming, Phase.reports])
  | @send locals chunk rest =>
      obtain ⟨disconnected, hphase⟩ := phase_sendChunk v { locals with chunks := rest } chunk
      refine h.working (metrics_sendChunk _ _ _) ?_ (by simp [hphase, Phase.Resting])
      rw [(v.sendChunk_spec _ chunk).1]
      exact List.prefix_append _ _
  | @dispatch locals completed rest =>
      refine h.working (metrics_dispatchCompleted _ _) ?_ (by simp [Phase.Resting])
      exact (v.dispatchCompleted_spec completed).1 ▸ List.prefix_append _ _
  | @route completed rest =>
      refine h.working (metrics_dispatchCompleted _ _) ?_ (by simp [Phase.Resting])
      exact (v.dispatchCompleted_spec completed).1 ▸ List.prefix_append _ _
  | cancel => exact h.working rfl List.prefix_rfl (by simp [Phase.Resting])
  | gaveUp => exact h.working rfl List.prefix_rfl (by simp [Phase.Resting])
  | _ => exact h.working rfl List.prefix_rfl (by simp [Phase.Resting])

theorem reflects_of_reachable {config : EngineConfig} {tokenizer : τ} {gpuExecutor : σ}
    (h : Reachable config tokenizer gpuExecutor v) : v.Reflects := by
  obtain ⟨s, -, -, -, hreflects⟩ := h.follows (P := fun v s => v.Paced ∧ v.Delivers s ∧ v.Reflects)
    ⟨paced_start _, delivers_start _ rfl, reflects_start _ _ _⟩
    (fun hf ⟨hpaced, hd, hp⟩ hstep =>
      ⟨hpaced.loop hf hstep, hd.loop hf hpaced hstep, hp.loop hf hd hstep⟩)
    (fun ⟨hpaced, hd, hp⟩ hstep =>
      ⟨hpaced.clientStep hstep, hd.clientStep hstep, hp.clientStep hstep⟩)
    fun prompt params hopen ⟨hpaced, hd, hp⟩ =>
      ⟨hpaced.submit hopen prompt params, hd.submit prompt params, hp.submit prompt params⟩
  exact hreflects

/-- Asleep again, with one report of two submissions: the figures are those of that report. -/
theorem reflects_of_reachable_small :
    ∃ v, loopSteps 19 smallServer = some v ∧ v.metrics.completedRequests = 1 ∧
      v.metrics.totalTokensGenerated = 2 ∧ v.dispatched.length = 1 ∧ v.Reflects := by
  have hvalid : Session.smallConfig.validate = .ok () := by decide +kernel
  have hrun : (loopSteps 19 smallServer).map (fun v =>
      (v.metrics.completedRequests, v.metrics.totalTokensGenerated, v.dispatched.length)) =
        some (1, 2, 1) := by
    decide +kernel
  obtain ⟨v, hv, hfigures⟩ := Option.map_eq_some_iff.1 hrun
  obtain ⟨hcompleted, hrest⟩ := Prod.mk.inj hfigures
  obtain ⟨htokens, hdispatched⟩ := Prod.mk.inj hrest
  have hreachable := ((Reachable.start hvalid).step
    (.submit "a" { maxTokens := 2 } rfl (by decide)))
    |>.step (.submit "" { maxTokens := 2 } rfl (by decide)) |>.loopSteps hv
  exact ⟨v, hv, hcompleted, htokens, hdispatched, reflects_of_reachable hreachable⟩

end Server

end PagedServing
