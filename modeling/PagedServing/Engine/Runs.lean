import PagedServing.Engine.Serving

/-! # Whole steps and whole runs

A step is its batch followed by the collection, and never returns an error. What a
session keeps therefore holds after every list of operations.
-/

namespace PagedServing

open Scheduler Relation FixedWidth

namespace InferenceEngine

variable {σ τ δ : Type} [GPUExecutorTrait σ] [IncrementalDecoder δ] [TokenizerTrait τ δ]
  {e : InferenceEngine σ τ δ}

/-! ## A step up to the collection -/

/-- A step up to the collection, with the chunks of the decoders. -/
def advance (e : InferenceEngine σ τ δ) : InferenceEngine σ τ δ × List StepChunk :=
  if e.output.isEmpty then (e.scheduled, [])
  else
    match e.executionPipeline.execute e.output with
    | (.ok output, pipeline) => e.served pipeline output
    | (.error err, pipeline) => (e.batchFailed pipeline err.display, [])

theorem collect_ne_nil (hs : e.scheduler.Sound) (h : e.scheduler.completedRequests ≠ []) :
    e.collectCompletedRequests.1.1 ≠ [] := by
  rw [(collectCompletedRequests_collected hs).results]
  simpa using h

/-- A step never returns an error: a failed batch always leaves something to report. -/
theorem stepEvents_eq (hs : e.scheduler.Sound) :
    e.stepEvents =
      (.ok
        { completed := e.advance.1.collectCompletedRequests.1.1
          chunks := e.advance.2 ++ e.advance.1.collectCompletedRequests.1.2 },
        e.advance.1.collectCompletedRequests.2) := by
  have hout : e.scheduler.schedule = (e.output, e.scheduled.scheduler) := rfl
  rw [stepEvents, advance, hout]
  dsimp only
  split
  next => rfl
  next hne =>
    rcases hrun : e.executionPipeline.execute e.output with ⟨result, pipeline⟩
    cases result with
    | ok output => rfl
    | error err =>
        have hcompleted := batchFailed_completed hs (by simpa using hne) pipeline err.display
        have hsound := hs.moves (batchFailed_moves hs pipeline err.display)
        have hresults := collect_ne_nil hsound hcompleted
        have hfalse : (e.batchFailed pipeline err.display).collectCompletedRequests.1.1.isEmpty =
            false := by simpa using hresults
        change (if (e.batchFailed pipeline err.display).collectCompletedRequests.1.1.isEmpty
          then _ else _) = _
        rw [hfalse]
        rfl

/-- The four ways of a step up to the collection. -/
theorem advance_cases
    (hlen : ∀ seq ∈ e.output.prefillSequences, seq.request.inputTokens.length < 2 ^ 32) :
    (e.output.isEmpty = true ∧ e.advance = (e.scheduled, [])) ∨
      (e.output.isEmpty = false ∧
        ((∃ reason, e.advance = (e.batchFailed e.executionPipeline reason, [])) ∨
          (∃ b err pipeline, e.executionPipeline.Sent e.output b (.error err) pipeline ∧
            e.advance = (e.batchFailed pipeline err.display, [])) ∨
          ∃ b output pipeline, e.executionPipeline.Sent e.output b (.ok output) pipeline ∧
            e.advance = e.served pipeline output)) := by
  cases hempty : e.output.isEmpty with
  | true => exact .inl ⟨rfl, by rw [advance, if_pos hempty]⟩
  | false =>
      refine .inr ⟨rfl, ?_⟩
      rw [advance, if_neg (by simp [hempty])]
      rcases BatchExecutionPipeline.execute_cases (p := e.executionPipeline) hempty hlen with
        ⟨err, hrun⟩ | ⟨b, hsent⟩
      · rw [hrun]
        exact .inl ⟨_, rfl⟩
      · rcases hrun : e.executionPipeline.execute e.output with ⟨result, pipeline⟩
        rw [hrun] at hsent
        cases result with
        | ok output => exact .inr (.inr ⟨b, output, pipeline, hsent, rfl⟩)
        | error err => exact .inr (.inl ⟨b, err, pipeline, hsent, rfl⟩)

end InferenceEngine

namespace Session

variable {σ τ δ : Type} [IncrementalDecoder δ] [TokenizerTrait τ δ] {x : Setting τ}
  {answer : List TokenId → TokenId → Prop} {R : σ → Fed → Prop} {s s' : Session σ τ δ}

/-! ## Admitted requests in a batch -/

/-- Whatever the scheduler knows was admitted. -/
theorem Inv.exists_admitted (hi : s.Inv answer R x) {id : SeqId}
    (hid : id ∈ s.engine.scheduler.ids) : ∃ r ∈ s.admitted, r.id = id :=
  List.mem_map.1 (hi.places.mem_iff.1 (List.mem_append_left _ hid))

/-- Every scheduled sequence is an admitted request on its course. -/
theorem Inv.listed_steps (hi : s.Inv answer R x) {seq : Sequence}
    (hseq : seq ∈ s.engine.output.prefillSequences ++ s.engine.output.decodeSequences) :
    ∃ r ∈ s.admitted, ∃ w entry d, Course.Steps x answer r (Course.start x) w ∧ s.Tells r w ∧
      r.id = seq.seqId ∧ w.place.Scheduled x.config r seq entry d ∧
      s.engine.output.Lists seq entry := by
  have hs := hi.sound
  have hactive := InferenceEngine.output_eq_active hs seq hseq
  have hlisted : seq.seqId ∈ s.engine.output.seqIds := List.mem_map_of_mem hseq
  obtain ⟨r, hr, hid⟩ := hi.exists_admitted (InferenceEngine.mem_ids_of_listed hs hlisted)
  obtain ⟨fed, -, hall⟩ := hi.courses
  obtain ⟨w, hsteps, ht, -⟩ := hall r hr
  refine ⟨r, hr, w, ?_⟩
  rcases InferenceEngine.place_of_schedule hs ht.place with
    ⟨hno, -⟩ | ⟨seq', entry, d, hsched, hlists, -, hseq', -⟩
  · exact absurd (hid ▸ hlisted) hno
  · obtain rfl : seq' = seq := by
      rw [hid, hactive] at hseq'
      exact (Option.some.inj hseq').symm
    rw [hi.config] at hsched
    exact ⟨entry, d, hsteps, ht, hid, hsched, hlists⟩

theorem Inv.listed (hi : s.Inv answer R x) {seq : Sequence}
    (hseq : seq ∈ s.engine.output.prefillSequences ++ s.engine.output.decodeSequences) :
    ∃ r ∈ s.admitted, ∃ w entry d, w.Lawful x answer r ∧ s.Tells r w ∧ r.id = seq.seqId ∧
      w.place.Scheduled x.config r seq entry d := by
  obtain ⟨r, hr, w, entry, d, hsteps, ht, hid, hsched, -⟩ := hi.listed_steps hseq
  exact ⟨r, hr, w, entry, d,
    Course.Steps.lawful (hi.admits r hr).1 (Course.lawful_start x answer r) hsteps, ht, hid, hsched⟩

theorem Inv.prompts (hi : s.Inv answer R x) :
    ∀ seq ∈ s.engine.output.prefillSequences, seq.request.inputTokens.length < 2 ^ 32 := by
  intro seq hseq
  obtain ⟨r, hr, w, entry, d, hw, -, -, hsched⟩ := hi.listed (List.mem_append_left _ hseq)
  have hadmits := (hi.admits r hr).1
  have hfits := hadmits.fits
  have hmax := UInt32.toNat_lt x.config.maxModelLen
  rw [(Course.between_of_scheduled hadmits hw.place hsched).after.inputTokens]
  omega

/-- A request that has been reported is in no other place. -/
theorem Inv.place_of_report (hi : s.Inv answer R x) {r : Request} {report : CompletedRequest}
    (hreport : report ∈ s.reports) (hid : report.requestId = r.id) {place : Place δ}
    (hplace : s.engine.HoldsAt r place)
    (htold : ∀ told, place = .reported told → told ∈ s.reports ∧ told.requestId = r.id) :
    place = .reported report := by
  have hnodup := List.nodup_append.1 (hi.places.nodup_iff.2 hi.once)
  have hmem : r.id ∈ s.reports.map (·.requestId) := List.mem_map.2 ⟨report, hreport, hid⟩
  have hgone : ∀ held, ¬ s.engine.scheduler.Holds r.id held := fun held hheld =>
    hnodup.2.2 r.id (mem_ids_iff.2 ⟨held, hheld⟩) r.id hmem rfl
  cases place with
  | waiting d => exact absurd hplace.1 (hgone _)
  | running seq d => exact absurd hplace.1 (hgone _)
  | ended req d => exact absurd hplace.1 (hgone _)
  | reported told =>
      obtain ⟨hmem, hidtold⟩ := htold told rfl
      rw [List.inj_on_of_nodup_map hnodup.2.1 hmem hreport (hidtold.trans hid.symm)]

/-- The course of a request that has been reported. -/
theorem Inv.reported (hi : s.Inv answer R x) {r : Request} (hr : r ∈ s.admitted)
    {report : CompletedRequest} (hreport : report ∈ s.reports) (hid : report.requestId = r.id) :
    ∃ fed w, R s.engine.executionPipeline.gpuExecutor fed ∧ w.Lawful x answer r ∧
      s.Tells r w ∧ FedBy fed r w ∧ w.place = .reported report := by
  obtain ⟨fed, hR, hall⟩ := hi.courses
  obtain ⟨w, hsteps, ht, hf⟩ := hall r hr
  exact ⟨fed, w, hR, hsteps.lawful (hi.admits r hr).1 (Course.lawful_start x answer r), ht, hf,
    hi.place_of_report hreport hid ht.place ht.reported⟩

/-- What the tokens of a request and the texts streamed for it say about its report. -/
theorem Inv.outcome (hi : s.Inv answer R x) {r : Request} (hr : r ∈ s.admitted)
    {report : CompletedRequest} (hreport : report ∈ s.reports) (hid : report.requestId = r.id) :
    x.Generates answer r (tokensOf s.calls r.id) ∧
      x.Allows r (tokensOf s.calls r.id) (textsOf s.chunks r.id) (.reported report : Place δ) := by
  obtain ⟨fed, w, -, hw, ht, -, hplace⟩ := hi.reported hr hreport hid
  rw [← ht.generated, ← ht.texts, ← hplace]
  exact ⟨hw.generates, hw.place⟩

/-- Nothing is streamed for a request that has been reported. -/
theorem Stage.texts_of_reported (h : Stage x answer R s s') (hi : s.Inv answer R x) {r : Request}
    (hr : r ∈ s.admitted) {report : CompletedRequest} (hreport : report ∈ s.reports)
    (hid : report.requestId = r.id) : textsOf s'.chunks r.id = textsOf s.chunks r.id := by
  obtain ⟨fed, w, hR, hw, ht, hf, hplace⟩ := hi.reported hr hreport hid
  obtain ⟨fed', -, hcourses⟩ := h.courses fed hR
  obtain ⟨w', hsteps, ht', -⟩ := hcourses r w (hi.admits r hr).1 hw ht hf
  obtain rfl := hsteps.eq_of_reported hplace
  rw [← ht'.texts, ht.texts]

/-! ## The stage -/

variable [GPUExecutorTrait σ]

def advance (s : Session σ τ δ) : Session σ τ δ := s.stream s.engine.advance

theorem step_eq (hs : s.engine.scheduler.Sound) : s.step = s.advance.collect := by
  rw [step, InferenceEngine.stepEvents_eq hs]
  simp only [advance, collect, stream, List.append_assoc]

theorem advance_stage (hA : Answering σ answer R) (hi : s.Inv answer R x)
    (hsettled : Settled s.calls) : Stage x answer R s s.advance := by
  have hs := hi.sound
  rw [advance]
  rcases InferenceEngine.advance_cases hi.prompts with
    ⟨hempty, heq⟩ | ⟨-, ⟨reason, heq⟩ | ⟨b, err, pipeline, hsent, heq⟩ |
      ⟨b, output, pipeline, hsent, heq⟩⟩
  · have hnone : ∀ id, id ∉ s.engine.output.seqIds := by
      simp [SchedulerOutput.seqIds_of_isEmpty hempty]
    rw [heq, stream, List.append_nil]
    refine keep_stage hs (schedule_moves hs.wf) ?_ fun r place hplace => ?_
    · rw [IdMap.eq_empty_iff]
      intro k
      cases hk : s.engine.scheduler.schedule.2.prefillSequences[k]? with
      | none => rfl
      | some seq => exact absurd (InferenceEngine.prefill_mem_output hs hi.idle hk) (hnone k)
    · rcases InferenceEngine.place_of_schedule hs hplace with ⟨-, hk⟩ | ⟨_, _, _, -, hlists, -⟩
      · exact hk
      · exact absurd hlists.mem_seqIds (hnone _)
  · rw [heq, stream, List.append_nil]
    exact fail_stage hs hi.config hi.idle reason false (by simp [calls]) (fun _ => rfl)
      (fun _ hb => .inl hb) fun fed hR => ⟨fed, hR, fun _ _ => rfl⟩
  · rw [heq, stream, List.append_nil]
    refine fail_stage hs hi.config hi.idle _ true ?_ hsent.attempts.tokensOf_error ?_ ?_
    · intro id
      rw [hsent.attempts.entriesOf hsettled, hsent.builds.entries]
      rfl
    · intro batch hbatch
      rw [hsent.attempts.batchesOf hsettled] at hbatch
      rcases List.mem_append.1 hbatch with hbatch | hbatch
      · exact .inl hbatch
      · rw [List.mem_singleton.1 hbatch]
        exact .inr (InferenceEngine.separate_of_builds hs hsent.builds)
    · intro fed hR
      obtain ⟨fed', hR', hfed⟩ := hsent.answers hA hR
      refine ⟨fed', hR', fun id hid => ?_⟩
      rw [← hsent.builds.feed_of_not_mem fed' hid, ← hsent.builds.feed_of_not_mem fed hid]
      exact congrFun hfed id
  · rw [heq]
    exact serve_stage hA hi hsettled hsent

/-! ## Runs -/

/-- A batch that timed out for good leaves something to collect. -/
theorem advance_settled (hi : s.Inv answer R x) (hsettled : Settled s.calls) :
    Settled s.advance.calls ∨ s.advance.engine.scheduler.completedRequests ≠ [] := by
  have hs := hi.sound
  rw [advance]
  rcases InferenceEngine.advance_cases hi.prompts with
    ⟨-, heq⟩ | ⟨hne, ⟨reason, heq⟩ | ⟨b, err, pipeline, -, heq⟩ | ⟨b, output, pipeline, hsent, heq⟩⟩
  · rw [heq]
    exact .inl hsettled
  · rw [heq]
    exact .inr (InferenceEngine.batchFailed_completed hs hne _ reason)
  · rw [heq]
    exact .inr (InferenceEngine.batchFailed_completed hs hne pipeline _)
  · rw [heq]
    exact .inl (calls_served hs hsent ▸ hsent.attempts.settled)

theorem collect_settled (hs : s.engine.scheduler.Sound)
    (h : Settled s.calls ∨ s.engine.scheduler.completedRequests ≠ []) :
    Settled s.collect.calls := by
  rw [calls, collect, (InferenceEngine.collectCompletedRequests_collected hs).executionPipeline]
  split
  next hnone => exact h.resolve_right fun hne => hne hnone
  next =>
    intro call hcall
    rw [BatchExecutionPipeline.sequencesFinished, List.getLast?_concat, Option.mem_some_iff] at hcall
    rw [← hcall]
    rfl

theorem inv_step (hA : Answering σ answer R) (hi : s.Inv answer R x) (hsettled : Settled s.calls) :
    s.step.Inv answer R x ∧ Settled s.step.calls := by
  have hadvance := hi.stage (advance_stage hA hi hsettled)
  rw [step_eq hi.sound]
  exact ⟨hadvance.stage (collect_stage hA hadvance.sound hadvance.idle hadvance.setting),
    collect_settled hadvance.sound (advance_settled hi hsettled)⟩

theorem inv_apply (hA : Answering σ answer R) (hi : s.Inv answer R x) (hsettled : Settled s.calls)
    (op : EngineOp) : (s.apply op).Inv answer R x ∧ Settled (s.apply op).calls := by
  cases op with
  | submitRequest text params =>
      exact ⟨inv_submit hi text params, (calls_submit s text params).symm ▸ hsettled⟩
  | cancelRequest requestId => exact ⟨hi.stage (cancel_stage hi.sound hi.idle requestId), hsettled⟩
  | stepEvents => exact inv_step hA hi hsettled
  | failPendingRequests reason =>
      exact ⟨hi.stage (failPending_stage hi.sound hi.idle reason), hsettled⟩

theorem inv_run (hA : Answering σ answer R) (hi : s.Inv answer R x) (hsettled : Settled s.calls)
    (ops : List EngineOp) : (s.run ops).Inv answer R x ∧ Settled (s.run ops).calls := by
  induction ops generalizing s with
  | nil => exact ⟨hi, hsettled⟩
  | cons op rest ih =>
    obtain ⟨hi', hsettled'⟩ := inv_apply hA hi hsettled op
    exact ih hi' hsettled'

/-! ## What a run adds -/

theorem prefix_apply (s : Session σ τ δ) (op : EngineOp) :
    s.admitted <+: (s.apply op).admitted ∧ s.reports <+: (s.apply op).reports := by
  cases op with
  | submitRequest text params =>
      rw [apply, submit]
      split
      · exact ⟨List.prefix_append _ _, List.prefix_rfl⟩
      · exact ⟨List.prefix_rfl, List.prefix_rfl⟩
  | cancelRequest requestId => exact ⟨List.prefix_rfl, List.prefix_rfl⟩
  | stepEvents =>
      rw [apply, step]
      split
      · exact ⟨List.prefix_rfl, List.prefix_append _ _⟩
      · exact ⟨List.prefix_rfl, List.prefix_rfl⟩
  | failPendingRequests reason => exact ⟨List.prefix_rfl, List.prefix_rfl⟩

/-- After its report a request gets no more chunks. -/
theorem texts_run (hA : Answering σ answer R) (hi : s.Inv answer R x) (hsettled : Settled s.calls)
    {r : Request} (hr : r ∈ s.admitted) {report : CompletedRequest} (hreport : report ∈ s.reports)
    (hid : report.requestId = r.id) (ops : List EngineOp) :
    textsOf (s.run ops).chunks r.id = textsOf s.chunks r.id := by
  induction ops generalizing s with
  | nil => rfl
  | cons op rest ih =>
    obtain ⟨hi', hsettled'⟩ := inv_apply hA hi hsettled op
    obtain ⟨hadmitted, hreports⟩ := s.prefix_apply op
    refine (ih hi' hsettled' (hadmitted.subset hr) (hreports.subset hreport)).trans ?_
    cases op with
    | submitRequest text params =>
        rw [apply, submit]
        split <;> rfl
    | cancelRequest requestId => rfl
    | stepEvents =>
        have hadvance := advance_stage hA hi hsettled
        have hmid := hi.stage hadvance
        rw [apply, step_eq hi.sound]
        exact ((collect_stage hA hmid.sound hmid.idle hmid.setting).texts_of_reported hmid hr hreport
          hid).trans (hadvance.texts_of_reported hi hr hreport hid)
    | failPendingRequests reason => rfl

/-- A session after any operations on a new engine with an accepted configuration. -/
structure Reachable (config : EngineConfig) (tokenizer : τ) (gpuExecutor : σ)
    (s : Session σ τ δ) : Prop where
  valid : config.validate = .ok ()
  run : ∃ ops, s = (new config tokenizer gpuExecutor).run ops

/-- What every reachable session keeps. -/
theorem Reachable.inv {config : EngineConfig} {tokenizer : τ} {gpuExecutor : σ} {fed : Fed}
    (h : s.Reachable config tokenizer gpuExecutor) (hA : Answering σ answer R)
    (hR : R gpuExecutor fed) :
    s.Inv answer R (settingOf config tokenizer) ∧ Settled s.calls := by
  obtain ⟨hvalid, ops, rfl⟩ := h
  exact inv_run hA (inv_new hvalid tokenizer fed hR) (by rintro _ ⟨⟩) ops

/-- The part that does not depend on what the backend answers. -/
theorem Reachable.inv_any {config : EngineConfig} {tokenizer : τ} {gpuExecutor : σ}
    (h : s.Reachable config tokenizer gpuExecutor) :
    s.Inv (fun _ _ => True) (fun _ _ => True) (settingOf config tokenizer) ∧ Settled s.calls := by
  obtain ⟨hvalid, ops, rfl⟩ := h
  exact inv_run (Answering.any σ) (inv_new hvalid tokenizer (fun _ => []) trivial)
    (by rintro _ ⟨⟩) ops

/-- What a new session has and every operation keeps. -/
theorem Reachable.keeps {config : EngineConfig} {tokenizer : τ} {gpuExecutor : σ}
    {P : Session σ τ δ → Prop} (h : s.Reachable config tokenizer gpuExecutor)
    (hnew : P (new config tokenizer gpuExecutor))
    (hkeep : ∀ (s : Session σ τ δ) (op : EngineOp), s.Inv (fun _ _ => True) (fun _ _ => True)
      (settingOf config tokenizer) → Settled s.calls → P s → P (s.apply op)) : P s := by
  obtain ⟨hvalid, ops, rfl⟩ := h
  have hinv : (new config tokenizer gpuExecutor : Session σ τ δ).Inv (fun _ _ => True)
      (fun _ _ => True) (settingOf config tokenizer) :=
    inv_new hvalid tokenizer (fun _ => []) trivial
  have hsettled : Settled (new config tokenizer gpuExecutor : Session σ τ δ).calls := by
    rintro _ ⟨⟩
  induction ops using List.reverseRecOn with
  | nil => exact hnew
  | append_singleton ops op ih =>
      obtain ⟨hi, hs⟩ := inv_run (Answering.any σ) hinv hsettled ops
      rw [Session.run, List.foldl_append]
      exact hkeep _ op hi hs ih

end Session

end PagedServing
