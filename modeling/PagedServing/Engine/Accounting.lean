import PagedServing.Engine.RunLoop

/-! # The accounts of an engine

The counters, the decoder map and the containers of the scheduler are updated in
different places. Whatever calls are made, they agree with the reports that left.
-/

namespace PagedServing

open Scheduler Relation

/-! ## A report is conclusive -/

/-- Success, no error and a finish reason are one and the same. -/
structure CompletedRequest.Conclusive (report : CompletedRequest) : Prop where
  error : report.success = true ↔ report.error = none
  finishReason : report.success = true ↔ ∃ reason, report.finishReason = some reason

theorem Request.report_conclusive {τ δ : Type} [TokenizerTrait τ δ] {req : Request}
    (h : req.state.IsTerminal) (tokenizer : τ) (eosTokenId : TokenId) :
    (req.report tokenizer eosTokenId).Conclusive := by
  cases hstate : req.state with
  | completed =>
      cases hdecode : TokenizerTrait.tryDecode tokenizer req.outputTokens with
      | ok text =>
          refine ⟨by simp [report, hstate, hdecode], ?_⟩
          simp only [report, hstate, hdecode, if_true, true_iff]
          split
          · exact ⟨_, rfl⟩
          · exact ⟨_, rfl⟩
      | error message => constructor <;> simp [report, hstate, hdecode]
  | failed reason => constructor <;> simp [report, hstate]
  | _ =>
      rw [hstate] at h
      cases h

/-! ## The books -/

namespace InferenceEngine

variable {σ τ δ : Type}

/-- The counters of an engine that has admitted `n` requests and returned `reports`. -/
structure Books (e : InferenceEngine σ τ δ) (n : Nat) (reports : List CompletedRequest) :
    Prop where
  total : e.totalRequests = n
  numbering : e.nextRequestId = n + 1
  completed : e.completedRequestsCount = reports.countP (·.success)
  failed : e.failedRequestsCount = reports.countP (!·.success)
  tokens : e.totalTokensGenerated = (reports.map (·.outputTokens.length)).sum

/-- The counters are as they were. -/
structure SameCounters (e e' : InferenceEngine σ τ δ) : Prop where
  total : e'.totalRequests = e.totalRequests
  numbering : e'.nextRequestId = e.nextRequestId
  completed : e'.completedRequestsCount = e.completedRequestsCount
  failed : e'.failedRequestsCount = e.failedRequestsCount
  tokens : e'.totalTokensGenerated = e.totalTokensGenerated

variable {e e' e'' : InferenceEngine σ τ δ} {n : Nat} {reports : List CompletedRequest}

theorem SameCounters.refl (e : InferenceEngine σ τ δ) : e.SameCounters e :=
  ⟨rfl, rfl, rfl, rfl, rfl⟩

theorem SameCounters.trans (h : e.SameCounters e') (h' : e'.SameCounters e'') :
    e.SameCounters e'' :=
  ⟨h'.total.trans h.total, h'.numbering.trans h.numbering, h'.completed.trans h.completed,
    h'.failed.trans h.failed, h'.tokens.trans h.tokens⟩

theorem Books.of_same (h : e.Books n reports) (hsame : e.SameCounters e') :
    e'.Books n reports :=
  ⟨hsame.total.trans h.total, hsame.numbering.trans h.numbering,
    hsame.completed.trans h.completed, hsame.failed.trans h.failed,
    hsame.tokens.trans h.tokens⟩

/-- The counters through a fold whose turns do not touch them. -/
theorem foldl_sameCounters {β γ : Type} (engine : γ → InferenceEngine σ τ δ) {f : γ → β → γ}
    (hf : ∀ acc b, (engine acc).SameCounters (engine (f acc b))) (acc : γ) (l : List β) :
    (engine acc).SameCounters (engine (l.foldl f acc)) := by
  induction l generalizing acc with
  | nil => exact .refl _
  | cons b rest ih => exact (hf acc b).trans (ih (f acc b))

theorem pushToken_sameCounters [IncrementalDecoder δ]
    (acc : InferenceEngine σ τ δ × List StepChunk) (entry : RequestId × TokenId) :
    acc.1.SameCounters (pushToken acc entry).1 := by
  rw [pushToken]
  dsimp only
  split
  · exact .refl _
  · split <;> exact ⟨rfl, rfl, rfl, rfl, rfl⟩

variable [TokenizerTrait τ δ] [IncrementalDecoder δ]

theorem settled_sameCounters (e : InferenceEngine σ τ δ)
    (generated : List (RequestId × TokenId)) : e.SameCounters (e.settled generated).1 := by
  have hstop : e.SameCounters (e.applyStopSequences generated) :=
    foldl_sameCounters id (fun e cut => (⟨rfl, rfl, rfl, rfl, rfl⟩ : e.SameCounters (e.stopOne cut)))
      e (e.toStop generated)
  exact hstop.trans (foldl_sameCounters Prod.fst pushToken_sameCounters
    (e.applyStopSequences generated, []) generated)

theorem advance_sameCounters [GPUExecutorTrait σ] (e : InferenceEngine σ τ δ) :
    e.SameCounters e.advance.1 := by
  rw [advance]
  split
  · exact ⟨rfl, rfl, rfl, rfl, rfl⟩
  · split
    next output pipeline _ =>
      have hupdated : e.SameCounters (e.updated pipeline output) := ⟨rfl, rfl, rfl, rfl, rfl⟩
      exact hupdated.trans (settled_sameCounters _ _)
    next => exact ⟨rfl, rfl, rfl, rfl, rfl⟩

theorem collectOne_books {results : List CompletedRequest} {tails : List StepChunk}
    (h : e.Books n (reports ++ results)) (req : Request) :
    (collectOne (e, results, tails) req).1.Books n
      (reports ++ (collectOne (e, results, tails) req).2.1) := by
  have hcount (p : CompletedRequest → Bool) (report : CompletedRequest) :
      (reports ++ (results ++ [report])).countP p =
        (reports ++ results).countP p + (p report).toNat := by
    rw [← List.append_assoc, List.countP_append, List.countP_singleton]
    cases p report <;> rfl
  refine ⟨h.total, h.numbering, ?_, ?_, ?_⟩
  · rw [collectOne]
    dsimp only
    rw [hcount, ← h.completed]
  · rw [collectOne]
    dsimp only
    rw [hcount, ← h.failed]
  · rw [collectOne]
    dsimp only
    rw [h.tokens, ← List.append_assoc, ← List.concat_eq_append, List.map_concat,
      List.concat_eq_append, List.sum_append]
    rfl

theorem collectCompletedRequests_books [GPUExecutorTrait σ] (h : e.Books n reports) :
    e.collectCompletedRequests.2.Books n (reports ++ e.collectCompletedRequests.1.1) := by
  have hfold (reqs : List Request)
      (acc : InferenceEngine σ τ δ × List CompletedRequest × List StepChunk)
      (hacc : acc.1.Books n (reports ++ acc.2.1)) :
      (reqs.foldl collectOne acc).1.Books n (reports ++ (reqs.foldl collectOne acc).2.1) := by
    induction reqs generalizing acc with
    | nil => exact hacc
    | cons req rest ih => exact ih _ (collectOne_books hacc req)
  rw [collectCompletedRequests]
  dsimp only
  split
  · rw [List.append_nil]
    exact h.of_same ⟨rfl, rfl, rfl, rfl, rfl⟩
  · refine hfold _ _ ?_
    rw [List.append_nil]
    exact h.of_same ⟨rfl, rfl, rfl, rfl, rfl⟩

end InferenceEngine

namespace Session

variable {σ τ δ : Type} [TokenizerTrait τ δ] {x : Setting τ}
  {answer : List TokenId → TokenId → Prop} {R : σ → Fed → Prop} {s s' : Session σ τ δ}

/-! ## Decoders and reports -/

/-- A pending or active request has a decoder. -/
theorem Inv.exists_decoder [IncrementalDecoder δ] (hi : s.Inv answer R x) {id : Nat} {held : Held}
    (h : s.engine.scheduler.Holds id held) (hopen : ∀ r, held ≠ .completed r) :
    ∃ decoder, s.engine.decoders[id]? = some decoder := by
  obtain ⟨r, hr, rfl⟩ := hi.exists_admitted (mem_ids_iff.2 ⟨held, h⟩)
  obtain ⟨fed, -, hall⟩ := hi.courses
  obtain ⟨w, -, ht, -⟩ := hall r hr
  have hplace := ht.place
  cases hat : w.place with
  | waiting d => exact ⟨d, (hat ▸ hplace).2⟩
  | running seq d => exact ⟨d, (hat ▸ hplace).2⟩
  | ended req d => exact absurd (hi.sound.wf.holds_unique h (hat ▸ hplace).1) (hopen req)
  | reported report => exact absurd (mem_ids_iff.2 ⟨held, h⟩) (hat ▸ hplace).1

theorem Inv.conclusive [IncrementalDecoder δ] (hi : s.Inv answer R x) : ∀ report ∈ s.reports, report.Conclusive := by
  intro report hreport
  have hmem : report.requestId ∈ s.admitted.map (·.id) :=
    hi.places.mem_iff.1 (List.mem_append_right _ (List.mem_map_of_mem hreport))
  obtain ⟨r, hr, hid⟩ := List.mem_map.1 hmem
  obtain ⟨-, req, decoder, before, hended, rfl, -⟩ := hi.outcome hr hreport hid.symm
  refine Request.report_conclusive ?_ _ _
  cases hended <;> trivial

/-! ## The books of a session -/

def Booked (s : Session σ τ δ) : Prop := s.engine.Books s.admitted.length s.reports

theorem booked_new (config : EngineConfig) (tokenizer : τ) (gpuExecutor : σ) :
    (new config tokenizer gpuExecutor : Session σ τ δ).Booked := ⟨rfl, rfl, rfl, rfl, rfl⟩

/-- The accounts that an engine keeps of its requests. -/
structure Accounted (s : Session σ τ δ) : Prop where
  total : s.engine.totalRequests = s.engine.completedRequestsCount
    + s.engine.failedRequestsCount + s.engine.scheduler.pendingQueue.length
    + s.engine.scheduler.numActiveSequences + s.engine.scheduler.completedRequests.length
  tokens : s.engine.totalTokensGenerated = (s.reports.map (·.outputTokens.length)).sum
  numbering : s.engine.nextRequestId = s.engine.totalRequests + 1
  decoders : ∀ (id : RequestId) (decoder : δ), s.engine.decoders[id]? = some decoder →
    (∃ p ∈ s.engine.scheduler.pendingQueue, p.request.id = id) ∨
      (∃ seq ∈ s.engine.scheduler.activeSequences, seq.request.id = id) ∨
      ∃ r ∈ s.engine.scheduler.completedRequests, r.2.id = id
  pendingDecoder : ∀ p ∈ s.engine.scheduler.pendingQueue,
    ∃ decoder, s.engine.decoders[p.request.id]? = some decoder
  activeDecoder : ∀ seq ∈ s.engine.scheduler.activeSequences,
    ∃ decoder, s.engine.decoders[seq.request.id]? = some decoder
  conclusive : ∀ report ∈ s.reports, report.Conclusive

theorem Inv.accounted [IncrementalDecoder δ] (hi : s.Inv answer R x) (hbooked : s.Booked) :
    s.Accounted := by
  have hs := hi.sound
  refine ⟨?_, hbooked.tokens, ?_, fun id decoder hdecoder => ?_, fun p hp => ?_,
    fun seq hseq => ?_, hi.conclusive⟩
  · have hplaces := hi.places.length_eq
    have hcount := s.reports.length_eq_countP_add_countP (·.success)
    simp only [ids, List.length_append, List.length_map, Std.ExtTreeMap.length_keys] at hplaces
    rw [hbooked.total, hbooked.completed, hbooked.failed, numActiveSequences]
    simp only [Bool.not_eq_true, Bool.decide_eq_false] at hcount
    omega
  · rw [hbooked.numbering, hbooked.total]
  · have hid : id ∈ s.engine.scheduler.ids := by
      by_contra hno
      rw [hi.decoder_none hno] at hdecoder
      cases hdecoder
    obtain ⟨held, hheld⟩ := mem_ids_iff.1 hid
    cases held with
    | pending r => exact .inl ⟨_, hheld, hs.labelled.pending _ hheld⟩
    | prefill seq =>
        exact .inr (.inl ⟨seq, mem_activeSequences.2 ⟨id, .inl hheld⟩, hs.labelled.prefill hheld⟩)
    | decode seq =>
        exact .inr (.inl ⟨seq, mem_activeSequences.2 ⟨id, .inr hheld⟩, hs.labelled.decode hheld⟩)
    | completed r => exact .inr (.inr ⟨_, hheld, hs.labelled.completed _ hheld⟩)
  · rw [hs.labelled.pending p hp]
    exact hi.exists_decoder (.pending hp) (by rintro r ⟨⟩)
  · obtain ⟨id, hprefill | hdecode⟩ := mem_activeSequences.1 hseq
    · rw [hs.labelled.prefill hprefill]
      exact hi.exists_decoder (.prefill hprefill) (by rintro r ⟨⟩)
    · rw [hs.labelled.decode hdecode]
      exact hi.exists_decoder (.decode hdecode) (by rintro r ⟨⟩)

/-! ## The books along a session -/

variable [GPUExecutorTrait σ]

theorem Booked.submit (h : s.Booked) (text : String) (params : GenerationParams) :
    (s.submit text params).Booked := by
  rcases s.submit_cases text params with ⟨sch, hrun, -⟩ | ⟨inputTokens, -, -, hrun⟩
  · rw [hrun]
    exact h.of_same ⟨rfl, rfl, rfl, rfl, rfl⟩
  · rw [hrun]
    refine ⟨?_, ?_, h.completed, h.failed, h.tokens⟩
    · rw [List.length_append, List.length_singleton, ← h.total]
      rfl
    · rw [List.length_append, List.length_singleton, ← h.numbering]
      rfl

variable [IncrementalDecoder δ]

theorem Booked.collect (h : s.Booked) : s.collect.Booked :=
  InferenceEngine.collectCompletedRequests_books h

theorem Booked.step (h : s.Booked) (hs : s.engine.scheduler.Sound) : s.step.Booked := by
  have hadvance : s.advance.Booked := h.of_same s.engine.advance_sameCounters
  rw [step_eq hs]
  exact hadvance.collect

theorem Booked.apply (h : s.Booked) (hs : s.engine.scheduler.Sound) (op : EngineOp) :
    (s.apply op).Booked := by
  cases op with
  | submitRequest text params => exact h.submit text params
  | cancelRequest requestId => exact h.of_same ⟨rfl, rfl, rfl, rfl, rfl⟩
  | stepEvents => exact h.step hs
  | failPendingRequests reason => exact h.of_same ⟨rfl, rfl, rfl, rfl, rfl⟩

theorem acts_booked (hA : Answering σ answer R) (hsteady : s.Steady answer R x) (h : s.Booked)
    (ha : ReflTransGen Act s s') : s'.Booked := by
  induction ha with
  | refl => exact h
  | tail hacts hact ih =>
    cases hact with
    | step => exact ih.step (acts_steady hA hsteady hacts).inv.sound
    | failPending => exact ih.of_same ⟨rfl, rfl, rfl, rfl, rfl⟩
    | collect => exact ih.collect

/-! ## Sessions with whole runs -/

/-- Sessions reached with `run` as one of the calls; `run` drops the chunks. -/
inductive Reaches (config : EngineConfig) (tokenizer : τ) (gpuExecutor : σ) :
    Session σ τ δ → Prop
  | new (hvalid : config.validate = .ok ()) :
      Reaches config tokenizer gpuExecutor (new config tokenizer gpuExecutor)
  | apply {s : Session σ τ δ} (h : Reaches config tokenizer gpuExecutor s) (op : EngineOp) :
      Reaches config tokenizer gpuExecutor (s.apply op)
  | run {s : Session σ τ δ} {fuel : Nat} {results : List CompletedRequest}
      {e : InferenceEngine σ τ δ} (h : Reaches config tokenizer gpuExecutor s)
      (hrun : s.engine.run fuel = some (results, e)) :
      Reaches config tokenizer gpuExecutor
        { s with engine := e, reports := s.reports ++ results }

def withChunks (s : Session σ τ δ) (chunks : List StepChunk) : Session σ τ δ :=
  { s with chunks := chunks }

theorem apply_withChunks (s : Session σ τ δ) (chunks : List StepChunk) (op : EngineOp) :
    ∃ chunks', (s.withChunks chunks).apply op = (s.apply op).withChunks chunks' := by
  have hengine : (s.withChunks chunks).engine = s.engine := rfl
  cases op with
  | submitRequest text params =>
      refine ⟨chunks, ?_⟩
      rw [apply, apply, submit, submit, hengine]
      rcases s.engine.submitRequest_cases text params with
        ⟨err, sch, hrun, -⟩ | ⟨inputTokens, hencode, -, -, hrun⟩
      · rw [hrun]
        rfl
      · rw [hrun, hencode]
        rfl
  | cancelRequest requestId => exact ⟨chunks, rfl⟩
  | stepEvents =>
      rw [apply, apply, step, step, hengine]
      rcases s.engine.stepEvents with ⟨err | events, e⟩
      · exact ⟨chunks, rfl⟩
      · exact ⟨chunks ++ events.chunks, rfl⟩
  | failPendingRequests reason => exact ⟨chunks, rfl⟩

/-- With its chunks restored, every such session keeps the invariant and the books. -/
theorem Reaches.steady {config : EngineConfig} {tokenizer : τ} {gpuExecutor : σ}
    (h : s.Reaches config tokenizer gpuExecutor) :
    ∃ chunks, (s.withChunks chunks).Steady (fun _ _ => True) (fun _ _ => True)
      (settingOf config tokenizer) ∧ (s.withChunks chunks).Booked := by
  have hA := Answering.any σ
  induction h with
  | new hvalid =>
    have hnew : (Session.new config tokenizer gpuExecutor : Session σ τ δ).Reachable config
        tokenizer gpuExecutor := ⟨hvalid, [], rfl⟩
    exact ⟨[], hnew.steady, booked_new config tokenizer gpuExecutor⟩
  | @apply s _ op ih =>
    obtain ⟨chunks, hsteady, hbooked⟩ := ih
    obtain ⟨chunks', heq⟩ := s.apply_withChunks chunks op
    exact ⟨chunks', heq ▸ hsteady.apply hA op, heq ▸ hbooked.apply hsteady.inv.sound op⟩
  | @run s fuel results e _ hrun ih =>
    obtain ⟨chunks, hsteady, hbooked⟩ := ih
    obtain ⟨s', hacts, -, rfl, hreports⟩ := run_acts hA hsteady hrun
    have hsteady' := (acts_steady hA hsteady hacts).collect hA
    have hbooked' := (acts_booked hA hsteady hbooked hacts).collect
    have hadmitted := acts_admitted_eq hacts
    refine ⟨s'.collect.chunks, ?_⟩
    have heq : Session.withChunks { s with
        engine := s'.collect.engine
        reports := s.reports ++ results } s'.collect.chunks = s'.collect := by
      have hreports' : s'.collect.reports = s.reports ++ results := hreports
      have hadmitted' : s'.admitted = s.admitted := hadmitted
      rw [withChunks, ← hreports', ← hadmitted']
      rfl
    exact ⟨heq ▸ hsteady', heq ▸ hbooked'⟩

theorem accounted_of_reaches {config : EngineConfig} {tokenizer : τ} {gpuExecutor : σ}
    (h : s.Reaches config tokenizer gpuExecutor) : s.Accounted := by
  obtain ⟨chunks, hsteady, hbooked⟩ := h.steady
  obtain ⟨h1, h2, h3, h4, h5, h6, h7⟩ := hsteady.inv.accounted hbooked
  exact ⟨h1, h2, h3, h4, h5, h6, h7⟩

/-- One request is in flight after the first step. -/
theorem accounted_of_reaches_small :
    ((new smallConfig SimpleTokenizer.new ⟨fun _ => []⟩ :
      Session (FunctionBackend stopAtFour) SimpleTokenizer SimpleDecoder).apply
        (.submitRequest "a" { maxTokens := 3 })).step.Accounted :=
  accounted_of_reaches (.apply (.apply (.new (by decide +kernel)) _) .stepEvents)

end Session

end PagedServing
