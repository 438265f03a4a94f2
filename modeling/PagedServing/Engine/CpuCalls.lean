import PagedServing.Engine.Draining
import PagedServing.Engine.Replay
import PagedServing.Engine.Trace
import PagedServing.Executor.Simulation

/-! # The engine as a caller of the CPU executor

A backend that is not safe to retry gets every batch once. What its caller has seen is
then read off the call log, and every entry of the next batch continues its sequence.
-/

namespace PagedServing

/-! ## One call for each batch -/

namespace BatchExecutionPipeline

variable {σ : Type} [GPUExecutorTrait σ]

theorem executeLoop_once (batch : ExecutionBatch) (n : Nat) (p : BatchExecutionPipeline σ) :
    (executeLoop batch false n p).2 = (p.attempt batch).2 ∧
      ∀ output, (executeLoop batch false n p).1 = .ok output →
        (p.attempt batch).1 = .ok output := by
  have hrefused : ∀ (e : EngineError) (output : ExecutionOutput),
      (.error e : Except EngineError ExecutionOutput) = .ok output → False := fun _ _ h => by
    cases h
  rcases hattempt : p.attempt batch with ⟨reply, q⟩
  cases n with
  | zero =>
      rw [executeLoop, hattempt]
      cases reply with
      | ok output => exact ⟨rfl, fun o ho => congrArg Except.ok (accept_eq_ok.1 ho).1⟩
      | error e => exact ⟨rfl, fun o ho => (hrefused _ o ho).elim⟩
  | succ n =>
      rw [executeLoop, hattempt]
      cases reply with
      | ok output => exact ⟨rfl, fun o ho => congrArg Except.ok (accept_eq_ok.1 ho).1⟩
      | error e => cases e <;> exact ⟨rfl, fun o ho => (hrefused _ o ho).elim⟩

/-- The batch was sent, and sent once. -/
structure SentOnce (p : BatchExecutionPipeline σ) (o : SchedulerOutput) (b : ExecutionBatch)
    (result : Except EngineError ExecutionOutput) (p' : BatchExecutionPipeline σ) : Prop where
  sent : p.Sent o b result p'
  once : p' = (p.attempt b).2
  accepted : ∀ output, result = .ok output → (p.attempt b).1 = .ok output

theorem execute_once {p : BatchExecutionPipeline σ} {o : SchedulerOutput}
    (hretry : p.capabilities.retrySafe = false) (hne : o.isEmpty = false)
    (hlen : ∀ seq ∈ o.prefillSequences, seq.request.inputTokens.length < 2 ^ 32) :
    (∃ e, p.execute o = (.error e, p)) ∨
      ∃ b, p.SentOnce o b (p.execute o).1 (p.execute o).2 := by
  rcases execute_eq (p := p) hne hlen with hfail | ⟨b, hb, hshape, hrun⟩
  · exact .inl hfail
  · rw [hretry] at hrun
    obtain ⟨honce, haccepted⟩ := executeLoop_once b p.maxRetryAttempts.toNat p
    rw [hrun]
    exact .inr ⟨b, sent_executeLoop hb hshape _ _, honce, haccepted⟩

theorem SentOnce.calls {p p' : BatchExecutionPipeline σ} {o : SchedulerOutput}
    {b : ExecutionBatch} {result : Except EngineError ExecutionOutput}
    (h : p.SentOnce o b result p') :
    p'.calls = p.calls ++ [.execute b (p.attempt b).1] := by
  rw [h.once]
  rfl

end BatchExecutionPipeline

theorem InferenceEngine.rank_admitted {σ τ δ : Type} [TokenizerTrait τ δ]
    {e : InferenceEngine σ τ δ} {r : Request} (hne : r.id ≠ e.scheduler.nextSeqId)
    (tokens : List TokenId) (params : GenerationParams) :
    (e.admitted tokens params).rank r = e.rank r := by
  have hpending : r.id ∈ (e.admitted tokens params).scheduler.pendingQueue.map (·.seqId) ↔
      r.id ∈ e.scheduler.pendingQueue.map (·.seqId) := by
    rw [admitted, Scheduler.enqueue, List.map_append, List.mem_append, or_iff_left]
    simpa using hne
  rw [rank, rank]
  simp only [hpending]
  rfl

namespace Session

variable {σ τ δ : Type} [IncrementalDecoder δ] [TokenizerTrait τ δ] {x : Setting τ}
  {answer : List TokenId → TokenId → Prop} {R : σ → Fed → Prop} {s : Session σ τ δ}

/-! ## The engine as a caller -/

/-- What the caller of the backend has seen so far. -/
def caller (s : Session σ τ δ) : Caller := s.calls.foldl Caller.observe {}

/-- The caller's books agree with the call log, and every entry continued its sequence. -/
structure Tracked (blockSize : Nat) (s : Session σ τ δ) : Prop where
  finished : s.caller.finished = finishedIds s.calls
  table : ∀ id, s.caller.table id = Caller.lastTable [] (entriesOf s.calls id)
  fed : ∀ r ∈ s.admitted, 1 < s.engine.rank r →
    s.caller.fed r.id = (entriesOf s.calls r.id).flatMap (·.tokens)
  strangers : ∀ id ∉ s.admitted.map (·.id), s.caller.fed id = []
  conforms : Caller.ConformsTo (Caller.Continues blockSize) {} s.calls

/-- Every entry of the next batch continues its sequence. -/
theorem Tracked.continues (h : s.Tracked x.config.blockSize.toNat) (hi : s.Inv answer R x)
    (hn : s.Noticed) {b : ExecutionBatch} (hb : s.engine.output.Builds b)
    (hshape : validateBatchShape b = .ok ()) :
    ∀ entry ∈ b.entries, Caller.Continues x.config.blockSize.toNat s.caller entry := by
  intro entry hentry
  have hnonempty := (hb.cut.entry_nonempty hshape entry hentry).1
  have hseparate := InferenceEngine.separate_of_builds hi.sound hb
  have hnodup : entry.blockTable.Nodup := (List.nodup_flatMap.1 hseparate).1 entry hentry
  rw [hb.entries] at hentry
  obtain ⟨seq, hseq, hlists⟩ := SchedulerOutput.exists_lists hentry
  obtain ⟨r, hr, w, entry', d, hw, ht, hsched, hcont, hlists'⟩ := hi.listed_continues hseq
  obtain rfl := hlists'.unique (InferenceEngine.output_nodup hi.sound) hlists
  have hid : entry'.seqId = r.id := Request.TraceLaw.fedEntry_seqId hcont.fed
  have hlive : 1 < s.engine.rank r := by
    obtain ⟨req, hlive, -⟩ := hsched.live ""
    rw [ht.place.rank hi.sound.wf]
    exact (hlive.lt_rank (hi.admits r hr).1 hw).2
  have hfed := hcont.fed
  rw [ht.entries, ht.generated] at hfed
  obtain ⟨hpositions, hctx⟩ := (hi.traces.law r hr).next hfed
  rw [← h.fed r hr hlive, ← hid] at hpositions hctx
  refine ⟨?_, hnonempty, hpositions, hnodup, ?_, ?_⟩
  · rw [h.finished, hn.notices, hlists.seqId_eq]
    intro hmem
    exact hi.not_mem_ids hmem (InferenceEngine.mem_ids_of_listed hi.sound hlists.mem_seqIds)
  · rw [hctx]
    exact hcont.fits.room hi.valid
  · rw [h.table, hid, ← ht.entries]
    exact Caller.lastTable_prefix hcont.extends_prev

/-- Stages without a call of the backend. -/
theorem Tracked.keep {blockSize : Nat} {s' : Session σ τ δ} (h : s.Tracked blockSize)
    (hi : s.Inv answer R x) (hstage : Stage x answer R s s') (hcalls : s'.calls = s.calls) :
    s'.Tracked blockSize := by
  have hcaller : s'.caller = s.caller := by rw [caller, hcalls, caller]
  refine ⟨?_, ?_, ?_, ?_, ?_⟩
  · rw [hcaller, hcalls]
    exact h.finished
  · rw [hcaller, hcalls]
    exact h.table
  · rw [hcaller, hcalls, hstage.admitted]
    exact fun r hr hlive => h.fed r hr (hlive.trans_le (hstage.rank_le hi hr).1)
  · rw [hcaller, hstage.admitted]
    exact h.strangers
  · rw [hcalls]
    exact h.conforms

variable [GPUExecutorTrait σ]

/-- All that was in the batch of a step is over. -/
def BatchOver (s : Session σ τ δ) : Prop :=
  ∀ id ∈ s.engine.output.seqIds, ∃ req, s.advance.engine.scheduler.Holds id (.completed req)

/-- What a step did with the backend, if that is not safe to retry: nothing, or one
call that failed all it listed, or one call that was answered. -/
theorem advance_once (hretry : s.engine.executionPipeline.capabilities.retrySafe = false)
    (hi : s.Inv answer R x) :
    (s.advance.engine.executionPipeline = s.engine.executionPipeline ∧ s.BatchOver) ∨
      ∃ b result, s.engine.executionPipeline.SentOnce s.engine.output b result
          s.advance.engine.executionPipeline ∧
        ((∃ reply, (s.engine.executionPipeline.attempt b).1 = .ok reply) ∨ s.BatchOver) := by
  have hs := hi.sound
  have hfailed : ∀ pipeline reason, ∀ id ∈ s.engine.output.seqIds,
      ∃ req, (s.engine.batchFailed pipeline reason).scheduler.Holds id (.completed req) := by
    intro pipeline reason id hlisted
    obtain ⟨r, hr, rfl⟩ :=
      hi.exists_admitted (InferenceEngine.mem_ids_of_listed hs hlisted)
    obtain ⟨fed, -, hall⟩ := hi.courses
    obtain ⟨w, -, ht, -⟩ := hall r hr
    rcases InferenceEngine.place_of_schedule hs ht.place with
      ⟨hno, -⟩ | ⟨seq, entry, d, -, -, -, hseq, hd⟩
    · exact absurd hlisted hno
    · exact ⟨_, (InferenceEngine.batchFailed_holdsAt hs hlisted hseq hd).1⟩
  rw [BatchOver, advance, InferenceEngine.advance]
  split
  next hempty =>
    refine .inl ⟨rfl, ?_⟩
    rw [SchedulerOutput.seqIds_of_isEmpty hempty]
    exact fun id hid => absurd hid List.not_mem_nil
  next hempty =>
    have hne : s.engine.output.isEmpty = false := Bool.eq_false_iff.2 hempty
    have honce := BatchExecutionPipeline.execute_once hretry hne hi.prompts
    rcases hexecute : s.engine.executionPipeline.execute s.engine.output with ⟨result, pipeline⟩
    rw [hexecute] at honce
    cases result with
    | error e =>
        rcases honce with ⟨e', heq⟩ | ⟨b, honce⟩
        · exact .inl ⟨(Prod.mk.inj heq).2, hfailed pipeline e.display⟩
        · exact .inr ⟨b, _, honce, .inr (hfailed pipeline e.display)⟩
    | ok output =>
        rcases honce with ⟨e', heq⟩ | ⟨b, honce⟩
        · cases heq
        · refine .inr ⟨b, .ok output, ?_, .inl ⟨output, honce.accepted output rfl⟩⟩
          have hpipeline := InferenceEngine.served_pipeline hs honce.sent
          rw [stream]
          dsimp only
          rw [hpipeline]
          exact honce

theorem caller_advance {b : ExecutionBatch} {result : Except EngineError ExecutionOutput}
    (honce : s.engine.executionPipeline.SentOnce s.engine.output b result
      s.advance.engine.executionPipeline) :
    s.advance.caller = s.caller.after b.entries (s.engine.executionPipeline.attempt b).1 := by
  rw [caller, show s.advance.calls = _ from honce.calls, List.foldl_append]
  rfl

theorem Tracked.advance (h : s.Tracked x.config.blockSize.toNat)
    (hretry : s.engine.executionPipeline.capabilities.retrySafe = false)
    (hA : Answering σ answer R) (hi : s.Inv answer R x) (hsettled : Settled s.calls)
    (hn : s.Noticed) : s.advance.Tracked x.config.blockSize.toNat := by
  have hstage := advance_stage hA hi hsettled
  rcases advance_once hretry hi with ⟨hsame, -⟩ | ⟨b, result, honce, hreply⟩
  · exact h.keep hi hstage (congrArg BatchExecutionPipeline.calls hsame)
  · have hcalls : s.advance.calls =
        s.calls ++ [.execute b (s.engine.executionPipeline.attempt b).1] := honce.calls
    have hcaller := caller_advance honce
    have hentries : ∀ id, entriesOf s.advance.calls id =
        entriesOf s.calls id ++ b.entries.filter fun entry => entry.seqId = id :=
      honce.sent.attempts.entriesOf hsettled
    have hkeys : b.entries.map (·.seqId) = s.engine.output.seqIds := honce.sent.builds.entries_seqIds
    have hunlisted : ∀ id, id ∉ s.engine.output.seqIds →
        (b.entries.filter fun entry => entry.seqId = id) = [] := fun id hid =>
      filter_key_nil (hkeys ▸ hid)
    refine ⟨?_, fun id => ?_, fun r hr hlive => ?_, fun id hid => ?_, ?_⟩
    · rw [hcaller, Caller.after_finished, h.finished]
      exact (honce.sent.attempts.finishedIds).symm
    · rw [hcaller, Caller.after_table, h.table, hentries, Caller.lastTable_append]
    · have hfed := h.fed r hr (hlive.trans_le (hstage.rank_le hi hr).1)
      rw [hcaller, hentries, List.flatMap_append, ← hfed]
      rcases hreply with ⟨reply, hreply⟩ | hfailed
      · rw [hreply]
        exact Caller.feedAll_fed s.caller r.id b.entries
      · have hnone := hunlisted r.id fun hlisted => by
          obtain ⟨req, hreq⟩ := hfailed r.id hlisted
          exact hlive.ne' (InferenceEngine.rank_of_completed hstage.sound.wf hreq)
        rw [Caller.after_fed_of_filter _ _ _ _ hnone, hnone, List.flatMap_nil, List.append_nil]
    · have hnone := hunlisted id fun hlisted => hid <| by
        rw [← honce.sent.builds.seqIds] at hlisted
        exact (hn.advance hi).sent id (by
          rw [hcalls, sentIds_append]
          exact List.mem_append_right _ (by simpa [sentIds, BackendCall.sent] using hlisted))
      rw [hcaller, Caller.after_fed_of_filter _ _ _ _ hnone]
      exact h.strangers id hid
    · rw [hcalls, Caller.ConformsTo.append]
      refine ⟨h.conforms, honce.sent.shape, ?_, trivial⟩
      refine Caller.Each.of_pairwise Caller.Continues.feed ?_
        (h.continues hi hn honce.sent.builds honce.sent.shape)
      have hnodup : (b.entries.map (·.seqId)).Nodup :=
        hkeys ▸ InferenceEngine.output_nodup hi.sound
      exact List.pairwise_map.1 hnodup

theorem Tracked.collect {blockSize : Nat} (h : s.Tracked blockSize) (hA : Answering σ answer R)
    (hi : s.Inv answer R x) : s.collect.Tracked blockSize := by
  have hstage := collect_stage hA hi.sound hi.idle hi.setting
  have hcalls := calls_collect hi.sound
  split at hcalls
  next => exact h.keep hi hstage (hcalls.trans (List.append_nil _))
  next =>
    have hcaller : s.collect.caller =
        s.caller.finish (s.engine.scheduler.completedRequests.map (·.1)) := by
      rw [caller, hcalls, List.foldl_append]
      rfl
    have hentries : ∀ id, entriesOf s.collect.calls id = entriesOf s.calls id := entriesOf_congr
      (calls_collected (InferenceEngine.collectCompletedRequests_collected hi.sound)).1
    refine ⟨?_, ?_, ?_, ?_, ?_⟩
    · rw [hcaller, Caller.finish, h.finished, hcalls, finishedIds_append]
      exact congrArg _ (List.append_nil _).symm
    · simp only [hcaller, hentries]
      exact h.table
    · intro r hr hlive
      rw [hcaller, hentries]
      exact h.fed r hr (hlive.trans_le (hstage.rank_le hi hr).1)
    · rw [hcaller]
      exact h.strangers
    · rw [hcalls, Caller.ConformsTo.append]
      exact ⟨h.conforms, trivial⟩

theorem Tracked.submit {blockSize : Nat} (h : s.Tracked blockSize) (hi : s.Inv answer R x)
    (text : String) (params : GenerationParams) : (s.submit text params).Tracked blockSize := by
  have hcalls := calls_submit s text params
  have hcaller : (s.submit text params).caller = s.caller := by rw [caller, hcalls, caller]
  refine ⟨?_, ?_, ?_, ?_, ?_⟩
  · rw [hcaller, hcalls]
    exact h.finished
  · rw [hcaller, hcalls]
    exact h.table
  · rw [hcaller, hcalls]
    rcases s.submit_cases text params with ⟨sch, hrun, rfl | rfl⟩ | ⟨inputTokens, -, -, hrun⟩
    · rw [hrun]
      exact h.fed
    · rw [hrun]
      exact h.fed
    · rw [hrun]
      intro r hr hlive
      rcases List.mem_append.1 hr with hr | hr
      · rw [InferenceEngine.rank_admitted (hi.admits r hr).2.ne] at hlive
        exact h.fed r hr hlive
      · have hfresh : r.id ∉ s.admitted.map (·.id) := by
          rw [List.mem_singleton.1 hr]
          intro hmem
          obtain ⟨q, hq, hid⟩ := List.mem_map.1 hmem
          exact (hi.admits q hq).2.ne (hid.trans hi.numbering)
        rw [h.strangers r.id hfresh, (hi.strangers r.id hfresh).2.1]
        rfl
  · rw [hcaller]
    intro id hid
    exact h.strangers id fun hmem =>
      hid (((prefix_apply s (.submitRequest text params)).1.map _).subset hmem)
  · rw [hcalls]
    exact h.conforms

theorem Tracked.apply (h : s.Tracked x.config.blockSize.toNat)
    (hretry : s.engine.executionPipeline.capabilities.retrySafe = false)
    (hA : Answering σ answer R) (hi : s.Inv answer R x) (hsettled : Settled s.calls)
    (hn : s.Noticed) (op : EngineOp) : (s.apply op).Tracked x.config.blockSize.toNat := by
  cases op with
  | submitRequest text params => exact h.submit hi text params
  | cancelRequest requestId => exact h.keep hi (cancel_stage hi.sound hi.idle requestId) rfl
  | stepEvents =>
      rw [Session.apply, step_eq hi.sound]
      exact (h.advance hretry hA hi hsettled hn).collect hA
        (hi.stage (advance_stage hA hi hsettled))
  | failPendingRequests reason => exact h.keep hi (failPending_stage hi.sound hi.idle reason) rfl

theorem Reachable.tracked {config : EngineConfig} {tokenizer : τ} {gpuExecutor : σ}
    (h : s.Reachable config tokenizer gpuExecutor)
    (hretry : ∀ backend : σ, (GPUExecutorTrait.capabilities backend).retrySafe = false) :
    s.Tracked config.blockSize.toNat := by
  have hnew : (new config tokenizer gpuExecutor : Session σ τ δ).Tracked config.blockSize.toNat :=
    ⟨rfl, fun _ => rfl, fun r hr => absurd hr List.not_mem_nil, fun _ _ => rfl, trivial⟩
  have hboth : s.Noticed ∧ s.Tracked config.blockSize.toNat :=
    h.keeps (P := fun s => s.Noticed ∧ s.Tracked config.blockSize.toNat)
      ⟨noticed_new config tokenizer gpuExecutor, hnew⟩ fun s op hi hsettled hs =>
        ⟨hs.1.apply hi (.any σ) hsettled op,
          hs.2.apply (hretry _) (.any σ) hi hsettled hs.1 op⟩
  exact hboth.2

end Session

end PagedServing
