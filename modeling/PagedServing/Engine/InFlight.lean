import PagedServing.Engine.Refinement
import PagedServing.Scheduler.Budget

/-! # Sequences in flight

Between two steps of an engine every active sequence decodes, and a batch has room for
all of them: none is ever left behind.
-/

namespace PagedServing

open Scheduler Relation FixedWidth

namespace InferenceEngine

variable {σ τ δ : Type} {e : InferenceEngine σ τ δ}

/-- What is still active after scheduling is in the batch. -/
theorem scheduled_listed (hs : e.scheduler.Sound) (hidle : e.scheduler.prefillSequences = ∅)
    (hroomy : e.scheduler.Roomy) {a : SeqId} {seq : Sequence}
    (h : e.scheduled.scheduler.active a = some seq) : a ∈ e.output.seqIds := by
  rcases Option.or_eq_some_iff.1 h with hprefill | ⟨-, hdecode⟩
  · exact prefill_mem_output hs hidle hprefill
  · obtain ⟨hmap, hout⟩ := pass_sameDecode hs.wf
    have hpass : e.scheduler.decodePass.scheduler.decodeSequences[a]? = some seq := hmap ▸ hdecode
    obtain ⟨old, hold, -⟩ := (decodePass_spec hs.wf).decode hpass
    cases hroomy.handled hs.wf hold with
    | emitted _ hmem hid _ =>
        rw [seqIds_output, SchedulerOutput.seqIds, hout, ← hid]
        exact List.mem_map_of_mem (List.mem_append_right _ hmem)
    | failed _ hnone => simp [hnone] at hpass

theorem scheduled_decode_of_isEmpty (hs : e.scheduler.Sound)
    (hidle : e.scheduler.prefillSequences = ∅) (hroomy : e.scheduler.Roomy)
    (hempty : e.output.isEmpty = true) : e.scheduled.scheduler.decodeSequences = ∅ := by
  rw [IdMap.eq_empty_iff]
  intro a
  cases h : e.scheduled.scheduler.decodeSequences[a]? with
  | none => rfl
  | some seq =>
      have hmem := scheduled_listed hs hidle hroomy ((scheduled_sound hs).wf.active_of_decode h)
      simp [SchedulerOutput.seqIds_of_isEmpty hempty] at hmem

/-- A decode sequence that is not emitted was failed for want of a block. -/
theorem output_or_failed (hs : e.scheduler.Sound) (hroomy : e.scheduler.Roomy) {id : SeqId}
    {seq : Sequence} (h : e.scheduler.decodeSequences[id]? = some seq) :
    (∃ seq' ∈ e.scheduler.schedule.1.decodeSequences, seq'.seqId = id) ∨
      (id, seq.request.fail growthFailure) ∈ e.scheduler.schedule.2.completedRequests := by
  cases hroomy.handled hs.wf h with
  | @emitted seq' _ hmem hid _ => exact .inl ⟨seq', (pass_sameDecode hs.wf).2.symm ▸ hmem, hid⟩
  | failed hmem _ => exact .inr ((decodePass_completed hs.wf).subset hmem)

theorem Stopped.decode_subset {e' : InferenceEngine σ τ δ} {cuts : List (RequestId × Nat)}
    (h : e.Stopped cuts e') {a : Nat} {seq : Sequence}
    (hseq : e'.scheduler.decodeSequences[a]? = some seq) :
    e.scheduler.decodeSequences[a]? = some seq := by
  rw [h.removed.decode] at hseq
  split at hseq
  next => simp at hseq
  next => exact hseq

/-- Nothing is active after a failed batch. -/
theorem batchFailed_decode (hs : e.scheduler.Sound) (hidle : e.scheduler.prefillSequences = ∅)
    (hroomy : e.scheduler.Roomy) (pipeline : BatchExecutionPipeline σ) (reason : String) :
    (e.batchFailed pipeline reason).scheduler.decodeSequences = ∅ := by
  rw [IdMap.eq_empty_iff]
  intro a
  rw [(batchFailed_removed hs pipeline reason).decode, batchFailed_keys hs]
  split
  next => rfl
  next hno =>
    cases h : e.scheduled.scheduler.decodeSequences[a]? with
    | none => rfl
    | some seq =>
        exact absurd (scheduled_listed hs hidle hroomy
          ((scheduled_sound hs).wf.active_of_decode h)) hno

variable [GPUExecutorTrait σ] {pipeline : BatchExecutionPipeline σ} {b : ExecutionBatch}
  {output : ExecutionOutput}

/-- A batch that was sent feeds each of its prompts. -/
theorem prompts_of_sent {result : Except EngineError ExecutionOutput}
    (h : e.executionPipeline.Sent e.output b result pipeline)
    (hlen : ∀ seq ∈ e.output.prefillSequences, seq.request.inputTokens.length < 2 ^ 32) :
    ∀ seq ∈ e.output.prefillSequences, 0 < asU32 seq.request.inputTokens.length := by
  intro seq hseq
  rw [asU32_of_lt (hlen seq hseq)]
  have hmem : seq.prefillEntry ∈ b.entries := by
    rw [h.builds.entries]
    exact List.mem_append_left _ (List.mem_map_of_mem hseq)
  exact List.length_pos_of_ne_nil (h.builds.cut.entry_nonempty h.shape _ hmem).1

variable [IncrementalDecoder δ] [TokenizerTrait τ δ]

/-- What still decodes after an answered batch was in it. -/
theorem served_listed (hs : e.scheduler.Sound) (hidle : e.scheduler.prefillSequences = ∅)
    (hroomy : e.scheduler.Roomy)
    (h : e.executionPipeline.Sent e.output b (.ok output) pipeline) {a : Nat} {seq : Sequence}
    (hseq : (e.served pipeline output).1.scheduler.decodeSequences[a]? = some seq) :
    a ∈ e.output.seqIds := by
  obtain ⟨stopped, hstop, hpush⟩ := served_stages hs h
  rw [hpush.removed.decode] at hseq
  split at hseq
  next => simp at hseq
  next =>
    have hupdated := hstop.decode_subset hseq
    rw [(updated_updated hs h).decode] at hupdated
    split at hupdated
    next row hrow =>
      rw [← mem_output_iff hs h, ← ExecutionOutput.keys_rows (answered_of_sent hs h).tokens]
      exact List.mem_map_of_mem (IdMap.mem_of_lookup_eq_some hrow)
    next =>
      exact scheduled_listed hs hidle hroomy
        ((scheduled_sound hs).wf.active_of_decode hupdated)

end InferenceEngine

namespace Scheduler

variable {s s' : Scheduler}

/-- Fewer decode sequences leave at least as much room. -/
theorem Roomy.of_subset (h : s.Roomy) (hconfig : s'.config = s.config)
    (hsub : ∀ (a : Nat) (seq : Sequence), s'.decodeSequences[a]? = some seq →
      ∃ seq', s.decodeSequences[a]? = some seq') : s'.Roomy := by
  rw [Roomy, hconfig]
  refine le_trans ?_ h
  rw [← Std.ExtTreeMap.length_keys (t := s.decodeSequences)]
  exact IdMap.size_le_of_keys fun a seq hseq => IdMap.mem_keys.2 (hsub a seq hseq)

theorem Roomy.failSequence (h : s.Roomy) (hw : s.Wf) (id : SeqId) (reason : String) :
    (s.failSequence id reason).Roomy := by
  refine h.of_subset (Moves.evolves hw (failSequence_moves s id reason)).config ?_
  intro a seq hseq
  rcases s.failSequence_cases id reason with hretire | ⟨-, p, queue, -, -, -, heq⟩ |
    ⟨-, -, heq⟩
  · obtain ⟨_, hretired⟩ := retire_spec hw hretire
    exact ⟨seq, hretired.of_decode hseq⟩
  · rw [heq] at hseq
    exact ⟨seq, hseq⟩
  · rw [heq] at hseq
    exact ⟨seq, hseq⟩

end Scheduler

namespace Session

variable {σ τ δ : Type} [GPUExecutorTrait σ] [IncrementalDecoder δ] [TokenizerTrait τ δ]
  {x : Setting τ} {answer : List TokenId → TokenId → Prop} {R : σ → Fed → Prop}
  {s : Session σ τ δ}

theorem roomy_advance (hA : Answering σ answer R) (hi : s.Inv answer R x)
    (hsettled : Settled s.calls) (h : s.engine.scheduler.Roomy) :
    s.advance.engine.scheduler.Roomy := by
  have hs := hi.sound
  have hconfig := (advance_stage hA hi hsettled).config
  have hzero {sch : Scheduler} (hnone : sch.decodeSequences = ∅) : sch.Roomy := by
    rw [Roomy, hnone]
    exact Nat.zero_le _
  rw [advance] at hconfig ⊢
  rcases InferenceEngine.advance_cases hi.prompts with
    ⟨hempty, heq⟩ | ⟨-, ⟨reason, heq⟩ | ⟨b, err, pipeline, hsent, heq⟩ |
      ⟨b, output, pipeline, hsent, heq⟩⟩
  · rw [heq]
    exact hzero (InferenceEngine.scheduled_decode_of_isEmpty hs hi.idle h hempty)
  · rw [heq]
    exact hzero (InferenceEngine.batchFailed_decode hs hi.idle h _ reason)
  · rw [heq]
    exact hzero (InferenceEngine.batchFailed_decode hs hi.idle h pipeline _)
  · rw [Roomy, hconfig, heq]
    have hlen : s.engine.output.seqIds.length ≤ _ :=
      (schedule_withinBudget hs.wf).length_le (InferenceEngine.prompts_of_sent hsent hi.prompts)
    refine le_trans (IdMap.size_le_of_keys fun a seq hseq => ?_) hlen
    exact InferenceEngine.served_listed hs hi.idle h hsent hseq

theorem roomy_apply (hA : Answering σ answer R) (hi : s.Inv answer R x)
    (hsettled : Settled s.calls) (h : s.engine.scheduler.Roomy) (op : EngineOp) :
    (s.apply op).engine.scheduler.Roomy := by
  have hs := hi.sound
  cases op with
  | submitRequest text params =>
      rw [apply]
      rcases s.submit_cases text params with
        ⟨sch, hrun, rfl | rfl⟩ | ⟨inputTokens, -, -, hrun⟩ <;>
      · rw [hrun]
        exact h
  | cancelRequest requestId =>
      change (s.engine.scheduler.failByRequestId requestId _).2.Roomy
      rw [failByRequestId_eq hs]
      split
      next => exact h
      next => exact h.failSequence hs.wf _ _
  | stepEvents =>
      have hadvance := roomy_advance hA hi hsettled h
      have hsound := (hi.stage (advance_stage hA hi hsettled)).sound
      rw [apply, step_eq hs, collect,
        (InferenceEngine.collectCompletedRequests_collected hsound).scheduler]
      exact hadvance
  | failPendingRequests reason => exact h

theorem Reachable.roomy {config : EngineConfig} {tokenizer : τ} {gpuExecutor : σ}
    (h : s.Reachable config tokenizer gpuExecutor) : s.engine.scheduler.Roomy := by
  refine h.keeps ?_ fun s op hi hsettled hroomy =>
    roomy_apply (Answering.any σ) hi hsettled hroomy op
  change (∅ : IdMap Sequence).size ≤ _
  simp

/-- What holds between two steps, and of the scheduling pass that comes next. -/
structure InFlight (s : Scheduler) : Prop where
  idle : s.prefillSequences = ∅
  bounded : s.numActiveSequences ≤ min s.config.maxBatchSize.toNat s.config.maxTotalTokens.toNat
  emitted : ∀ (id : SeqId) (seq : Sequence), s.decodeSequences[id]? = some seq →
    (∃ seq' ∈ s.schedule.1.decodeSequences, seq'.seqId = id) ∨
      (id, seq.request.fail growthFailure) ∈ s.schedule.2.completedRequests
  /-- Each turn of the decode loop starts within both limits. -/
  unbroken : ∀ (pre : List SeqId) (id : SeqId) (post : List SeqId),
    s.passStart.scheduler.decodeSeqIds = pre ++ id :: post →
      (scheduleDecode pre s.passStart).Fits 1

theorem inFlight_of_reachable {config : EngineConfig} {tokenizer : τ} {gpuExecutor : σ}
    (h : s.Reachable config tokenizer gpuExecutor) : InFlight s.engine.scheduler := by
  have hi := h.inv_any.1
  have hroomy := h.roomy
  refine ⟨hi.idle, ?_, fun id seq hseq => ?_, fun pre id post hsplit => ?_⟩
  · rw [numActiveSequences, hi.idle, Std.ExtTreeMap.size_empty, Nat.zero_add]
    exact hroomy
  · exact InferenceEngine.output_or_failed hi.sound hroomy hseq
  · exact hroomy.fits hi.sound.wf hsplit

/-- One decode sequence is in flight after the first step. -/
theorem inFlight_of_reachable_small :
    InFlight ((new smallConfig SimpleTokenizer.new ⟨fun _ => []⟩ :
      Session (FunctionBackend stopAtFour) SimpleTokenizer SimpleDecoder).run
        (smallOps.take 2)).engine.scheduler :=
  inFlight_of_reachable ⟨by decide +kernel, _, rfl⟩

end Session

end PagedServing
