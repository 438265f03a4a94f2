import PagedServing.Engine.InFlight

/-! # Notices to the backend

Every report goes with one notice to the backend. A batch only has sequences that are
in the scheduler, and those have no report yet.
-/

namespace PagedServing

/-! ## Notices in a call log -/

def BackendCall.finished : BackendCall → List SeqId
  | .execute _ _ => []
  | .sequencesFinished ids => ids

/-- The sequences the backend was told are over, oldest first. -/
def finishedIds (calls : List BackendCall) : List SeqId := calls.flatMap BackendCall.finished

def BackendCall.sent : BackendCall → List SeqId
  | .execute b _ => b.seqIds
  | .sequencesFinished _ => []

/-- The sequences of all batches, oldest first. -/
def sentIds (calls : List BackendCall) : List SeqId := calls.flatMap BackendCall.sent

/-- No batch has a sequence that was over before it. -/
def QuietAfter : List SeqId → List BackendCall → Prop
  | _, [] => True
  | finished, .execute b _ :: rest => (∀ id ∈ b.seqIds, id ∉ finished) ∧ QuietAfter finished rest
  | finished, .sequencesFinished ids :: rest => QuietAfter (finished ++ ids) rest

theorem finishedIds_append (calls more : List BackendCall) :
    finishedIds (calls ++ more) = finishedIds calls ++ finishedIds more :=
  List.flatMap_append

theorem sentIds_append (calls more : List BackendCall) :
    sentIds (calls ++ more) = sentIds calls ++ sentIds more :=
  List.flatMap_append

theorem QuietAfter.append {finished : List SeqId} {calls more : List BackendCall} :
    QuietAfter finished (calls ++ more) ↔
      QuietAfter finished calls ∧ QuietAfter (finished ++ finishedIds calls) more := by
  induction calls generalizing finished with
  | nil => simp [QuietAfter, finishedIds]
  | cons call rest ih =>
      cases call with
      | execute b reply =>
          rw [List.cons_append, QuietAfter, QuietAfter, ih, and_assoc]
          rfl
      | sequencesFinished ids =>
          rw [List.cons_append, QuietAfter, QuietAfter, ih, List.append_assoc]
          rfl

namespace Attempts

variable {σ : Type} {p p' : BatchExecutionPipeline σ} {b : ExecutionBatch}
  {result : Except EngineError ExecutionOutput}

theorem finishedIds (h : Attempts p b result p') :
    finishedIds p'.calls = PagedServing.finishedIds p.calls := by
  obtain ⟨n, reply, hcalls, -⟩ := h.calls
  rw [hcalls, finishedIds_append, finishedIds_append]
  simp [PagedServing.finishedIds, BackendCall.finished]

theorem sentIds_subset (h : Attempts p b result p') :
    ∀ id ∈ sentIds p'.calls, id ∈ sentIds p.calls ∨ id ∈ b.seqIds := by
  obtain ⟨n, reply, hcalls, -⟩ := h.calls
  intro id hid
  rw [hcalls, sentIds_append, List.mem_append] at hid
  refine hid.imp_right fun hmem => ?_
  obtain ⟨call, hcall, hid⟩ := List.mem_flatMap.1 hmem
  rcases List.mem_append.1 hcall with hcall | hcall
  · obtain rfl := (List.mem_replicate.1 hcall).2
    exact hid
  · obtain rfl := List.mem_singleton.1 hcall
    exact hid

theorem quietAfter (h : Attempts p b result p') (hquiet : QuietAfter [] p.calls)
    (hb : ∀ id ∈ b.seqIds, id ∉ PagedServing.finishedIds p.calls) : QuietAfter [] p'.calls := by
  obtain ⟨n, reply, hcalls, -⟩ := h.calls
  have hreplays : ∀ m : Nat, QuietAfter (PagedServing.finishedIds p.calls)
      (List.replicate m (.execute b (.error .gpuTimeout)) ++ [.execute b reply]) := by
    intro m
    induction m with
    | zero => exact ⟨hb, trivial⟩
    | succ m ih => exact ⟨hb, ih⟩
  rw [hcalls, QuietAfter.append, List.nil_append]
  exact ⟨hquiet, hreplays n⟩

end Attempts

namespace Session

variable {σ τ δ : Type} [TokenizerTrait τ δ] {x : Setting τ} {s : Session σ τ δ}

/-- One notice for each report, none for a sequence that comes back, no batch of a
sequence that was never admitted. -/
structure Noticed (s : Session σ τ δ) : Prop where
  notices : finishedIds s.calls = s.reports.map (·.requestId)
  quiet : QuietAfter [] s.calls
  sent : ∀ id ∈ sentIds s.calls, id ∈ s.admitted.map (·.id)

theorem noticed_new (config : EngineConfig) (tokenizer : τ) (gpuExecutor : σ) :
    (new config tokenizer gpuExecutor : Session σ τ δ).Noticed :=
  ⟨rfl, trivial, fun _ hid => absurd hid List.not_mem_nil⟩

theorem reports_submit [GPUExecutorTrait σ] (s : Session σ τ δ) (text : String)
    (params : GenerationParams) : (s.submit text params).reports = s.reports := by
  rcases s.submit_cases text params with ⟨sch, hrun, -⟩ | ⟨inputTokens, -, -, hrun⟩
  · rw [hrun]
    rfl
  · rw [hrun]

variable [IncrementalDecoder δ] {answer : List TokenId → TokenId → Prop} {R : σ → Fed → Prop}

/-- What has a report has left the scheduler. -/
theorem Inv.not_mem_ids (hi : s.Inv answer R x) {id : SeqId}
    (hid : id ∈ s.reports.map (·.requestId)) : id ∉ s.engine.scheduler.ids := fun hmem =>
  List.disjoint_of_nodup_append (hi.places.nodup_iff.2 hi.once) hmem hid

variable [GPUExecutorTrait σ]

theorem Noticed.advance (h : s.Noticed) (hi : s.Inv answer R x) : s.advance.Noticed := by
  have hs := hi.sound
  have hids : ∀ id ∈ s.engine.output.seqIds, id ∈ s.engine.scheduler.ids := fun _ =>
    InferenceEngine.mem_ids_of_listed hs
  have hsent : ∀ {b result pipeline},
      s.engine.executionPipeline.Sent s.engine.output b result pipeline →
      finishedIds pipeline.calls = s.reports.map (·.requestId) ∧ QuietAfter [] pipeline.calls ∧
        ∀ id ∈ sentIds pipeline.calls, id ∈ s.admitted.map (·.id) := by
    intro b result pipeline hsent
    refine ⟨hsent.attempts.finishedIds.trans h.notices, hsent.attempts.quietAfter h.quiet ?_, ?_⟩
    · intro id hid hfin
      rw [hsent.builds.seqIds] at hid
      exact hi.not_mem_ids (h.notices ▸ hfin) (hids id hid)
    · intro id hid
      rcases hsent.attempts.sentIds_subset id hid with hid | hid
      · exact h.sent id hid
      · rw [hsent.builds.seqIds] at hid
        obtain ⟨r, hr, rfl⟩ := hi.exists_admitted (hids id hid)
        exact List.mem_map_of_mem hr
  rw [Session.advance]
  rcases InferenceEngine.advance_cases hi.prompts with
    ⟨-, heq⟩ | ⟨-, ⟨reason, heq⟩ | ⟨b, err, pipeline, hbatch, heq⟩ |
      ⟨b, output, pipeline, hbatch, heq⟩⟩
  · rw [heq]
    exact ⟨h.notices, h.quiet, h.sent⟩
  · rw [heq]
    exact ⟨h.notices, h.quiet, h.sent⟩
  · obtain ⟨hnotices, hquiet, hadmitted⟩ := hsent hbatch
    rw [heq]
    exact ⟨hnotices, hquiet, hadmitted⟩
  · obtain ⟨hnotices, hquiet, hadmitted⟩ := hsent hbatch
    rw [← calls_served hs hbatch] at hnotices hquiet hadmitted
    rw [heq]
    exact ⟨hnotices, hquiet, hadmitted⟩

theorem calls_collect (hs : s.engine.scheduler.Sound) :
    s.collect.calls = s.calls ++ if s.engine.scheduler.completedRequests = [] then []
      else [.sequencesFinished (s.engine.scheduler.completedRequests.map (·.1))] := by
  have hc := InferenceEngine.collectCompletedRequests_collected hs
  rw [calls, collect, hc.executionPipeline]
  split
  · rw [List.append_nil]
    rfl
  · rfl

theorem reports_collect (hs : s.engine.scheduler.Sound) :
    s.collect.reports.map (·.requestId) =
      s.reports.map (·.requestId) ++ s.engine.scheduler.completedRequests.map (·.1) := by
  have hc := InferenceEngine.collectCompletedRequests_collected hs
  rw [collect, List.map_append, hc.results, List.map_map]
  exact congrArg _ (List.map_congr_left hs.labelled.completed)

theorem Noticed.collect (h : s.Noticed) (hs : s.engine.scheduler.Sound) : s.collect.Noticed := by
  refine ⟨?_, ?_, ?_⟩
  · rw [calls_collect hs, reports_collect hs, finishedIds_append, h.notices]
    split
    next hnone => rw [hnone, List.map_nil]; rfl
    next => exact congrArg _ (List.append_nil _)
  · rw [calls_collect hs, QuietAfter.append]
    refine ⟨h.quiet, ?_⟩
    split <;> trivial
  · rw [calls_collect hs, sentIds_append]
    intro id hid
    refine h.sent id ((List.mem_append.1 hid).resolve_right fun hno => ?_)
    split at hno
    · exact absurd hno List.not_mem_nil
    · exact absurd hno (by simp [sentIds, BackendCall.sent])

theorem Noticed.apply (h : s.Noticed) (hi : s.Inv answer R x) (hA : Answering σ answer R)
    (hsettled : Settled s.calls) (op : EngineOp) : (s.apply op).Noticed := by
  cases op with
  | submitRequest text params =>
      refine ⟨?_, ?_, ?_⟩
      · rw [Session.apply, calls_submit, reports_submit]
        exact h.notices
      · rw [Session.apply, calls_submit]
        exact h.quiet
      · rw [Session.apply, calls_submit]
        exact fun id hid =>
          ((prefix_apply s (.submitRequest text params)).1.map _).subset (h.sent id hid)
  | cancelRequest requestId => exact ⟨h.notices, h.quiet, h.sent⟩
  | stepEvents =>
      have hmid := hi.stage (advance_stage hA hi hsettled)
      rw [Session.apply, step_eq hi.sound]
      exact (h.advance hi).collect hmid.sound
  | failPendingRequests reason => exact ⟨h.notices, h.quiet, h.sent⟩

theorem Reachable.noticed {config : EngineConfig} {tokenizer : τ} {gpuExecutor : σ}
    (h : s.Reachable config tokenizer gpuExecutor) : s.Noticed :=
  h.keeps (noticed_new config tokenizer gpuExecutor) fun _ op hi hsettled hnoticed =>
    hnoticed.apply hi (.any σ) hsettled op

end Session

end PagedServing
