import PagedServing.Engine.Lawful
import PagedServing.Engine.Settling
import PagedServing.Scheduler.History

/-! # Sessions

A session is an engine with what its clients have seen: the requests that were
admitted, the reports and the chunks. It tells the course of every admitted request.
-/

namespace PagedServing

open Scheduler Relation LabelledLog

/-- The operations that the engine offers its clients. -/
inductive EngineOp where
  | submitRequest (text : String) (params : GenerationParams)
  | cancelRequest (requestId : RequestId)
  | stepEvents
  | failPendingRequests (reason : String)
  deriving DecidableEq

structure Session (σ τ δ : Type) where
  engine : InferenceEngine σ τ δ
  admitted : List Request := []
  reports : List CompletedRequest := []
  chunks : List StepChunk := []

namespace InferenceEngine

variable {σ τ δ : Type} [TokenizerTrait τ δ]

/-- The engine after the admission of a request with these tokens. -/
def admitted (e : InferenceEngine σ τ δ) (inputTokens : List TokenId)
    (params : GenerationParams) : InferenceEngine σ τ δ :=
  { e with
    scheduler := e.scheduler.enqueue (Request.new e.nextRequestId inputTokens params)
    nextRequestId := e.nextRequestId + 1
    totalRequests := e.totalRequests + 1
    decoders :=
      e.decoders.insert e.nextRequestId (TokenizerTrait.createDecoder e.tokenizer) }

variable {e : InferenceEngine σ τ δ} {r : Request} {place : Place δ}

/-- An admission leaves every other request where it is. -/
theorem HoldsAt.admitted (hnumbering : e.nextRequestId = e.scheduler.nextSeqId)
    (hne : r.id ≠ e.scheduler.nextSeqId) (h : e.HoldsAt r place) (inputTokens : List TokenId)
    (params : GenerationParams) : (e.admitted inputTokens params).HoldsAt r place := by
  refine h.of_same (fun held => ?_) (IdMap.get_insert_ne (hnumbering ▸ hne.symm))
  cases held with
  | pending q => simp [Holds, InferenceEngine.admitted, enqueue, hne]
  | _ => rfl

/-- The admitted request waits with a decoder of its own. -/
theorem holdsAt_admitted (hnumbering : e.nextRequestId = e.scheduler.nextSeqId)
    (inputTokens : List TokenId) (params : GenerationParams) :
    (e.admitted inputTokens params).HoldsAt (Request.new e.nextRequestId inputTokens params)
      (.waiting (TokenizerTrait.createDecoder e.tokenizer)) := by
  refine ⟨List.mem_append_right _ (List.mem_singleton.2 ?_), Std.ExtTreeMap.getElem?_insert_self⟩
  rw [← hnumbering]
  rfl

variable [GPUExecutorTrait σ]

/-- A submission is refused, or its request is queued with a decoder of its own. -/
theorem submitRequest_cases (e : InferenceEngine σ τ δ) (text : String)
    (params : GenerationParams) :
    (∃ err sch, e.submitRequest text params = (.error err, { e with scheduler := sch }) ∧
        (sch = e.scheduler ∨ sch = e.scheduler.updateMemoryPressure)) ∨
      ∃ inputTokens, TokenizerTrait.tryEncode e.tokenizer text = .ok inputTokens ∧
        params.validate = .ok () ∧
        inputTokens.length + params.maxTokens.toNat ≤ e.config.maxModelLen.toNat ∧
        e.submitRequest text params =
          (.ok (e.nextRequestId, inputTokens.length), e.admitted inputTokens params) := by
  rw [submitRequest]
  cases hparams : params.validate with
  | error err => exact .inl ⟨err, e.scheduler, rfl, .inl rfl⟩
  | ok u =>
      dsimp only
      split
      · exact .inl ⟨_, e.scheduler, rfl, .inl rfl⟩
      · split
        · exact .inl ⟨_, e.scheduler, rfl, .inl rfl⟩
        · cases hencode : TokenizerTrait.tryEncode e.tokenizer text with
          | error message => exact .inl ⟨_, e.scheduler, rfl, .inl rfl⟩
          | ok inputTokens =>
              dsimp only
              split
              · exact .inl ⟨_, e.scheduler, rfl, .inl rfl⟩
              · split
                · exact .inl ⟨_, e.scheduler, rfl, .inl rfl⟩
                · next hfits =>
                    rcases addRequest_cases e.scheduler
                      (Request.new e.nextRequestId inputTokens params) with
                      ⟨-, hadd⟩ | ⟨err, hadd⟩
                    · rw [hadd]
                      exact .inr ⟨inputTokens, rfl, rfl, Nat.le_of_not_lt hfits, rfl⟩
                    · rw [hadd]
                      exact .inl ⟨err, _, rfl, .inr rfl⟩

end InferenceEngine

namespace Session

variable {σ τ δ : Type}

def calls (s : Session σ τ δ) : List BackendCall := s.engine.executionPipeline.calls

/-- The tokens generated for a request so far. -/
def generated (s : Session σ τ δ) (id : RequestId) : List TokenId := tokensOf s.calls id

/-- The texts streamed for a request so far. -/
def streamed (s : Session σ τ δ) (id : RequestId) : List String := textsOf s.chunks id

def withEngine (s : Session σ τ δ) (e : InferenceEngine σ τ δ) : Session σ τ δ :=
  { s with engine := e }

section Operations

variable [TokenizerTrait τ δ] {s : Session σ τ δ}

/-- A session with a new engine. -/
def new (config : EngineConfig) (tokenizer : τ) (gpuExecutor : σ) : Session σ τ δ where
  engine := .ofComponents config tokenizer (Scheduler.new config) gpuExecutor

theorem withComponents_eq_ok {config : EngineConfig} {tokenizer : τ} {gpuExecutor : σ}
    {e : InferenceEngine σ τ δ} :
    InferenceEngine.withComponents config tokenizer (Scheduler.new config) gpuExecutor = .ok e ↔
      config.validate = .ok () ∧ e = (new config tokenizer gpuExecutor).engine := by
  rw [InferenceEngine.withComponents]
  cases config.validate with
  | error err => simp
  | ok u => simp [new, eq_comm]

variable [GPUExecutorTrait σ]

def submit (s : Session σ τ δ) (text : String) (params : GenerationParams) : Session σ τ δ :=
  match s.engine.submitRequest text params, TokenizerTrait.tryEncode s.engine.tokenizer text with
  | (.ok (requestId, _), e), .ok inputTokens =>
      { s with engine := e, admitted := s.admitted ++ [Request.new requestId inputTokens params] }
  | (_, e), _ => s.withEngine e

theorem submit_cases (s : Session σ τ δ) (text : String) (params : GenerationParams) :
    (∃ sch, s.submit text params = s.withEngine { s.engine with scheduler := sch } ∧
        (sch = s.engine.scheduler ∨ sch = s.engine.scheduler.updateMemoryPressure)) ∨
      ∃ inputTokens, params.validate = .ok () ∧
        inputTokens.length + params.maxTokens.toNat ≤ s.engine.config.maxModelLen.toNat ∧
        s.submit text params =
          { s with
            engine := s.engine.admitted inputTokens params
            admitted := s.admitted ++ [Request.new s.engine.nextRequestId inputTokens params] } := by
  rw [submit]
  rcases s.engine.submitRequest_cases text params with
    ⟨err, sch, hrun, hsch⟩ | ⟨inputTokens, hencode, hparams, hfits, hrun⟩
  · rw [hrun]
    exact .inl ⟨sch, rfl, hsch⟩
  · rw [hrun, hencode]
    exact .inr ⟨inputTokens, hparams, hfits, rfl⟩

theorem engine_submit (s : Session σ τ δ) (text : String) (params : GenerationParams) :
    (s.submit text params).engine = (s.engine.submitRequest text params).2 := by
  rw [submit]
  rcases s.engine.submitRequest_cases text params with
    ⟨err, sch, hrun, -⟩ | ⟨inputTokens, hencode, -, -, hrun⟩
  · rw [hrun]
    rfl
  · rw [hrun, hencode]

theorem pipeline_submit (s : Session σ τ δ) (text : String) (params : GenerationParams) :
    (s.submit text params).engine.executionPipeline = s.engine.executionPipeline := by
  rcases s.submit_cases text params with ⟨sch, hrun, -⟩ | ⟨inputTokens, -, -, hrun⟩
  · rw [hrun]
    rfl
  · rw [hrun]
    rfl

theorem calls_submit (s : Session σ τ δ) (text : String) (params : GenerationParams) :
    (s.submit text params).calls = s.calls :=
  congrArg BatchExecutionPipeline.calls (pipeline_submit s text params)

variable [IncrementalDecoder δ]

/-- The collection at the end of a step. -/
def collect (s : Session σ τ δ) : Session σ τ δ :=
  { s with
    engine := s.engine.collectCompletedRequests.2
    reports := s.reports ++ s.engine.collectCompletedRequests.1.1
    chunks := s.chunks ++ s.engine.collectCompletedRequests.1.2 }

def step (s : Session σ τ δ) : Session σ τ δ :=
  match s.engine.stepEvents with
  | (.ok events, e) =>
      { s with
        engine := e
        reports := s.reports ++ events.completed
        chunks := s.chunks ++ events.chunks }
  | (.error _, e) => s.withEngine e

def apply (s : Session σ τ δ) : EngineOp → Session σ τ δ
  | .submitRequest text params => s.submit text params
  | .cancelRequest requestId => s.withEngine (s.engine.cancelRequest requestId).2
  | .stepEvents => s.step
  | .failPendingRequests reason => s.withEngine (s.engine.failPendingRequests reason).2

def run (s : Session σ τ δ) (ops : List EngineOp) : Session σ τ δ := ops.foldl apply s

end Operations

/-! ## The course of a request in a session -/

structure Tells (s : Session σ τ δ) (r : Request) (w : Course δ) : Prop where
  place : s.engine.HoldsAt r w.place
  reported : ∀ report, w.place = .reported report →
    report ∈ s.reports ∧ report.requestId = r.id
  entries : w.entries = entriesOf s.calls r.id
  generated : w.generated = tokensOf s.calls r.id
  texts : w.texts = textsOf s.chunks r.id

/-- What the backend has been fed for a running sequence: all but its last token. -/
def FedBy (fed : Fed) (r : Request) (w : Course δ) : Prop :=
  ∀ seq decoder, w.place = .running seq decoder →
    fed r.id = seq.request.inputTokens ++ seq.request.outputTokens.dropLast

/-- What a session keeps between the stages of its operations. -/
structure Inv [IncrementalDecoder δ] [TokenizerTrait τ δ] (answer : List TokenId → TokenId → Prop)
    (R : σ → Fed → Prop) (x : Setting τ) (s : Session σ τ δ) : Prop where
  setting : s.engine.setting = x
  valid : x.config.Valid
  config : s.engine.scheduler.config = x.config
  sound : s.engine.scheduler.Sound
  idle : s.engine.scheduler.prefillSequences = ∅
  numbering : s.engine.nextRequestId = s.engine.scheduler.nextSeqId
  places : (s.engine.scheduler.ids ++ s.reports.map (·.requestId)).Perm (s.admitted.map (·.id))
  once : (s.admitted.map (·.id)).Nodup
  admits : ∀ r ∈ s.admitted, x.Admits r ∧ r.id < s.engine.scheduler.nextSeqId
  strangers : ∀ id : Nat, id ∉ s.admitted.map (·.id) → s.engine.decoders[id]? = none ∧
    entriesOf s.calls id = [] ∧ tokensOf s.calls id = [] ∧ textsOf s.chunks id = []
  batches : ∀ b ∈ batchesOf s.calls, b.Separate
  courses : ∃ fed, R s.engine.executionPipeline.gpuExecutor fed ∧ ∀ r ∈ s.admitted,
    ∃ w, Course.Steps x answer r (Course.start x) w ∧ s.Tells r w ∧ FedBy fed r w

section Stages

variable [IncrementalDecoder δ] [TokenizerTrait τ δ] {x : Setting τ}
  {answer : List TokenId → TokenId → Prop} {R : σ → Fed → Prop} {s s' : Session σ τ δ}
  {r : Request} {w w' : Course δ}

/-- A part of an operation that admits nobody: what it keeps, and that it takes every
course along some steps. -/
structure Stage (x : Setting τ) (answer : List TokenId → TokenId → Prop) (R : σ → Fed → Prop)
    (s s' : Session σ τ δ) : Prop where
  setting : s'.engine.setting = s.engine.setting
  config : s'.engine.scheduler.config = s.engine.scheduler.config
  sound : s'.engine.scheduler.Sound
  idle : s'.engine.scheduler.prefillSequences = ∅
  nextRequestId : s'.engine.nextRequestId = s.engine.nextRequestId
  nextSeqId : s'.engine.scheduler.nextSeqId = s.engine.scheduler.nextSeqId
  admitted : s'.admitted = s.admitted
  places : (s'.engine.scheduler.ids ++ s'.reports.map (·.requestId)).Perm
    (s.engine.scheduler.ids ++ s.reports.map (·.requestId))
  strangers : ∀ id : Nat, id ∉ s.engine.scheduler.ids → s.engine.decoders[id]? = none →
    s'.engine.decoders[id]? = none ∧ entriesOf s'.calls id = entriesOf s.calls id ∧
      tokensOf s'.calls id = tokensOf s.calls id ∧ textsOf s'.chunks id = textsOf s.chunks id
  batches : ∀ b ∈ batchesOf s'.calls, b ∈ batchesOf s.calls ∨ b.Separate
  courses : ∀ fed, R s.engine.executionPipeline.gpuExecutor fed →
    ∃ fed', R s'.engine.executionPipeline.gpuExecutor fed' ∧ ∀ r w, x.Admits r →
      w.Lawful x answer r → s.Tells r w → FedBy fed r w →
        ∃ w', Course.Steps x answer r w w' ∧ s'.Tells r w' ∧ FedBy fed' r w'

theorem Inv.stage (hi : s.Inv answer R x) (h : Stage x answer R s s') : s'.Inv answer R x where
  setting := h.setting.trans hi.setting
  valid := hi.valid
  config := h.config.trans hi.config
  sound := h.sound
  idle := h.idle
  numbering := by rw [h.nextRequestId, h.nextSeqId, hi.numbering]
  places := h.admitted ▸ h.places.trans hi.places
  once := h.admitted ▸ hi.once
  admits := by
    rw [h.admitted, h.nextSeqId]
    exact hi.admits
  strangers id hid := by
    rw [h.admitted] at hid
    obtain ⟨hdecoder, hentries, htokens, htexts⟩ := hi.strangers id hid
    have hids : id ∉ s.engine.scheduler.ids := fun hmem =>
      hid (hi.places.mem_iff.1 (List.mem_append_left _ hmem))
    obtain ⟨hdecoder', hentries', htokens', htexts'⟩ := h.strangers id hids hdecoder
    exact ⟨hdecoder', hentries'.trans hentries, htokens'.trans htokens, htexts'.trans htexts⟩
  batches b hb := (h.batches b hb).elim (hi.batches b) id
  courses := by
    obtain ⟨fed, hR, hall⟩ := hi.courses
    obtain ⟨fed', hR', hstep⟩ := h.courses fed hR
    refine ⟨fed', hR', fun r hr => ?_⟩
    rw [h.admitted] at hr
    obtain ⟨w, hsteps, htells, hfed⟩ := hall r hr
    have hlawful := hsteps.lawful (hi.admits r hr).1 (Course.lawful_start x answer r)
    obtain ⟨w', hsteps', htells', hfed'⟩ := hstep r w (hi.admits r hr).1 hlawful htells hfed
    exact ⟨w', hsteps.trans hsteps', htells', hfed'⟩

/-! ## Requests that are failed in place -/

/-- A request that keeps its place or is failed there, with nothing logged or streamed. -/
theorem Tells.keep {fed fed' : Fed} (ht : s.Tells r w) (hk : s'.engine.Keeps r w.place)
    (hreports : s'.reports = s.reports) (hentries : entriesOf s'.calls r.id = entriesOf s.calls r.id)
    (htokens : tokensOf s'.calls r.id = tokensOf s.calls r.id)
    (htexts : textsOf s'.chunks r.id = textsOf s.chunks r.id) (hf : FedBy fed r w)
    (hfed : fed' r.id = fed r.id) :
    ∃ w', Course.Steps x answer r w w' ∧ s'.Tells r w' ∧ FedBy fed' r w' := by
  rcases hk with hsame | ⟨req, d, reason, hlive, hended⟩
  · refine ⟨w, .refl, ⟨hsame, ?_, ht.entries.trans hentries.symm, ht.generated.trans htokens.symm,
      ht.texts.trans htexts.symm⟩, fun seq d hplace => hfed.trans (hf seq d hplace)⟩
    rw [hreports]
    exact ht.reported
  · refine ⟨_, .single (.abort reason hlive), ⟨hended, ?_, ht.entries.trans hentries.symm,
      ht.generated.trans htokens.symm, ht.texts.trans htexts.symm⟩, ?_⟩
    · rintro report ⟨⟩
    · rintro seq decoder ⟨⟩

/-- A change of the scheduler by moves that only end requests. -/
theorem keep_stage {sch : Scheduler} (hs : s.engine.scheduler.Sound)
    (hm : Moves s.engine.scheduler sch) (hidle : sch.prefillSequences = ∅)
    (hk : ∀ r place, s.engine.HoldsAt r place →
      InferenceEngine.Keeps { s.engine with scheduler := sch } r place) :
    Stage x answer R s (s.withEngine { s.engine with scheduler := sch }) := by
  have he := Moves.evolves hs.wf hm
  exact ⟨rfl, he.config, hs.moves hm, hidle, rfl, he.nextSeqId, rfl, he.ids.append_right _,
    fun _ _ hd => ⟨hd, rfl, rfl, rfl⟩, fun _ hb => .inl hb, fun fed hR => ⟨fed, hR, fun r w _ _ ht hf =>
      ht.keep (hk r w.place ht.place) rfl rfl rfl rfl hf rfl⟩⟩

theorem cancel_stage (hs : s.engine.scheduler.Sound)
    (hidle : s.engine.scheduler.prefillSequences = ∅) (a : RequestId) :
    Stage x answer R s (s.withEngine (s.engine.cancelRequest a).2) :=
  keep_stage hs (failByRequestId_moves _ _ _) (failByRequestId_idle hs hidle a _)
    (InferenceEngine.failByRequestId_keeps hs a _)

theorem failPending_stage (hs : s.engine.scheduler.Sound)
    (hidle : s.engine.scheduler.prefillSequences = ∅) (reason : String) :
    Stage x answer R s (s.withEngine (s.engine.failPendingRequests reason).2) :=
  keep_stage hs (failPendingRequests_moves _ _) hidle
    (InferenceEngine.failPendingRequests_keeps hs reason)

/-! ## The first session -/

/-- The setting of every engine over these parts. -/
def settingOf (config : EngineConfig) (tokenizer : τ) : Setting τ :=
  ⟨config, tokenizer, TokenizerTrait.eosTokenId tokenizer⟩

theorem inv_new {config : EngineConfig} (hvalid : config.validate = .ok ()) (tokenizer : τ)
    {gpuExecutor : σ} (fed : Fed) (hR : R gpuExecutor fed) :
    (new config tokenizer gpuExecutor).Inv answer R (settingOf config tokenizer) where
  setting := rfl
  valid := EngineConfig.valid_of_validate hvalid
  config := rfl
  sound := ⟨wf_new config, by simp [new, InferenceEngine.ofComponents, Scheduler.new],
    by simp [new, InferenceEngine.ofComponents, Scheduler.new],
    by simp [new, InferenceEngine.ofComponents, Scheduler.new],
    by simp [new, InferenceEngine.ofComponents, Scheduler.new]⟩
  idle := rfl
  numbering := rfl
  places := by simp [new, InferenceEngine.ofComponents, ids, Scheduler.new]
  once := List.nodup_nil
  admits := by simp [new]
  strangers _ _ := ⟨by simp [new, InferenceEngine.ofComponents], rfl, rfl, rfl⟩
  batches := by simp [new, calls, InferenceEngine.ofComponents, BatchExecutionPipeline.new,
    batchesOf, batchesAfter]
  courses := ⟨fed, hR, by simp [new]⟩

/-! ## Collection -/

variable [GPUExecutorTrait σ]

theorem calls_collected {e e' : InferenceEngine σ τ δ} {results : List CompletedRequest}
    {tails : List StepChunk} (h : e.Collected e' results tails) :
    batchesOf e'.executionPipeline.calls = batchesOf e.executionPipeline.calls ∧
      ∀ id, tokensOf e'.executionPipeline.calls id = tokensOf e.executionPipeline.calls id := by
  rw [h.executionPipeline]
  split
  · exact ⟨rfl, fun _ => rfl⟩
  · simp [BatchExecutionPipeline.sequencesFinished, batchesOf, batchesAfter_append, batchesAfter,
      tokensOf, BackendCall.rows]

/-- What has not ended stays where it is. -/
theorem holdsAt_collect {place : Place δ} (hs : s.engine.scheduler.Sound)
    (hid : r.id ∉ s.engine.scheduler.completedRequests.map (·.1)) (h : s.engine.HoldsAt r place) :
    s.collect.engine.HoldsAt r place := by
  have hc := InferenceEngine.collectCompletedRequests_collected hs
  refine h.of_same (fun held => ?_) ?_
  · rw [collect, hc.scheduler, holds_takeCompleted, iff_self_and]
    rintro hheld q rfl
    exact hid (List.mem_map_of_mem hheld)
  · rw [collect, hc.decoders, if_neg hid]

/-- What has ended is reported and gone. -/
theorem reported_collect {q : Request} (hs : s.engine.scheduler.Sound)
    (hx : s.engine.setting = x) (hq : (r.id, q) ∈ s.engine.scheduler.completedRequests) :
    s.collect.engine.HoldsAt r (.reported (q.report x.tokenizer x.eosTokenId)) ∧
      q.report x.tokenizer x.eosTokenId ∈ s.collect.reports := by
  have hc := InferenceEngine.collectCompletedRequests_collected hs
  refine ⟨⟨?_, ?_⟩, List.mem_append_right _ ?_⟩
  · rw [collect, hc.scheduler, mem_ids_iff]
    rintro ⟨held, hheld⟩
    obtain ⟨hheld, hne⟩ := holds_takeCompleted.1 hheld
    exact hne q (hs.wf.holds_unique hheld (.completed hq))
  · rw [collect, hc.decoders, if_pos (List.mem_map_of_mem hq)]
  · rw [hc.results, ← hx]
    exact List.mem_map.2 ⟨_, hq, rfl⟩

theorem collect_tells (hs : s.engine.scheduler.Sound) (hx : s.engine.setting = x)
    (ht : s.Tells r w) {fed fed' : Fed}
    (hfed : ∀ id ∉ s.engine.scheduler.completedRequests.map (·.1), fed' id = fed id)
    (hf : FedBy fed r w) :
    ∃ w', Course.Steps x answer r w w' ∧ s.collect.Tells r w' ∧ FedBy fed' r w' := by
  have hc := InferenceEngine.collectCompletedRequests_collected hs
  have hkeys : (s.engine.scheduler.completedRequests.map (·.1)).Nodup := hs.wf.completed_nodup
  obtain ⟨hbatches, htokens⟩ := calls_collected hc
  have hentries : entriesOf s.collect.calls r.id = entriesOf s.calls r.id :=
    entriesOf_congr hbatches r.id
  by_cases hmem : r.id ∈ s.engine.scheduler.completedRequests.map (·.1)
  · obtain ⟨⟨_, q⟩, hq, hid⟩ := List.mem_map.1 hmem
    obtain rfl : _ = r.id := hid
    have hplace := ht.place.eq_ended hs.wf hq
    obtain ⟨hgone, hreport⟩ := reported_collect hs hx hq
    refine ⟨_, .single (.report hplace), ⟨hgone, ?_, ?_, ?_, ?_⟩, ?_⟩
    · rintro _ ⟨rfl⟩
      exact ⟨hreport, hs.labelled.completed _ hq⟩
    · exact ht.entries.trans hentries.symm
    · exact ht.generated.trans (htokens r.id).symm
    · rw [collect, textsOf_append, ← ht.texts, textsOf_of_texts hc.texts,
        under_flatMap_of_mem hkeys hq, hx]
    · rintro seq d ⟨⟩
  · refine ⟨w, .refl, ⟨holdsAt_collect hs hmem ht.place, ?_, ht.entries.trans hentries.symm,
      ht.generated.trans (htokens r.id).symm, ?_⟩, ?_⟩
    · intro report hreport
      obtain ⟨hold, hid⟩ := ht.reported report hreport
      exact ⟨List.mem_append_left _ hold, hid⟩
    · rw [collect, textsOf_append, textsOf_of_texts hc.texts, under_flatMap_of_not_mem hmem,
        List.append_nil, ht.texts]
    · intro seq d hplace
      rw [hfed r.id hmem, hf seq d hplace]

theorem collect_stage (hA : Answering σ answer R) (hs : s.engine.scheduler.Sound)
    (hidle : s.engine.scheduler.prefillSequences = ∅) (hx : s.engine.setting = x) :
    Stage x answer R s s.collect := by
  have hc := InferenceEngine.collectCompletedRequests_collected hs
  obtain ⟨hbatches, htokens⟩ := calls_collected hc
  refine ⟨hc.setting, ?_, ?_, ?_, hc.nextRequestId, ?_, rfl, ?_, ?_, ?_, ?_⟩
  · rw [collect, hc.scheduler]
    rfl
  · rw [collect, hc.scheduler]
    exact ⟨hs.wf.drain, hs.labelled.pending, hs.labelled.prefill, hs.labelled.decode,
      by simp [takeCompletedWithSeqIds]⟩
  · rw [collect, hc.scheduler]
    exact hidle
  · rw [collect, hc.scheduler]
    rfl
  · have hids : s.engine.collectCompletedRequests.1.1.map (·.requestId) =
        s.engine.scheduler.completedRequests.map (·.1) := by
      rw [hc.results, List.map_map]
      exact List.map_congr_left hs.labelled.completed
    rw [List.perm_iff_count]
    intro a
    simp only [collect, hc.scheduler, List.map_append, hids, takeCompletedWithSeqIds, ids,
      List.count_append, List.map_nil, List.count_nil]
    omega
  · intro id hid hdecoder
    have hno : id ∉ s.engine.scheduler.completedRequests.map (·.1) := by
      intro hmem
      obtain ⟨⟨_, q⟩, hq, rfl⟩ := List.mem_map.1 hmem
      exact hid (mem_ids_iff.2 ⟨_, .completed hq⟩)
    refine ⟨?_, ?_, htokens id, ?_⟩
    · rw [collect, hc.decoders, if_neg hno, hdecoder]
    · exact entriesOf_congr hbatches id
    · rw [collect, textsOf_append, textsOf_of_texts hc.texts, under_flatMap_of_not_mem hno,
        List.append_nil]
  · intro b hb
    exact .inl (hbatches ▸ hb)
  · intro fed hR
    have hfed : ∃ fed', R s.collect.engine.executionPipeline.gpuExecutor fed' ∧
        ∀ id ∉ s.engine.scheduler.completedRequests.map (·.1), fed' id = fed id := by
      rw [collect, hc.executionPipeline]
      split
      · exact ⟨fed, hR, fun _ _ => rfl⟩
      · exact hA.finished _ hR
    obtain ⟨fed', hR', hsame⟩ := hfed
    exact ⟨fed', hR', fun r w _ _ ht hf => collect_tells hs hx ht hsame hf⟩

/-! ## Admission -/

theorem inv_submit (hi : s.Inv answer R x) (text : String) (params : GenerationParams) :
    (s.submit text params).Inv answer R x := by
  rcases s.submit_cases text params with
    ⟨sch, hrun, hsch⟩ | ⟨inputTokens, hparams, hfits, hrun⟩
  · rw [hrun]
    have hstage : Stage x answer R s (s.withEngine { s.engine with scheduler := sch }) := by
      rcases hsch with rfl | rfl
      · exact keep_stage hi.sound .refl hi.idle fun _ _ h => .inl h
      · exact keep_stage hi.sound (.single (.pressure _ _)) hi.idle fun _ _ h => .inl h
    exact hi.stage hstage
  · rw [hrun]
    set new := Request.new s.engine.nextRequestId inputTokens params with hnew
    have hid : new.id = s.engine.scheduler.nextSeqId := hi.numbering
    have hfresh : ∀ r ∈ s.admitted, r.id ≠ s.engine.scheduler.nextSeqId := fun r hr =>
      (hi.admits r hr).2.ne
    have hstranger : new.id ∉ s.admitted.map (·.id) := by
      rintro hmem
      obtain ⟨r, hr, heq⟩ := List.mem_map.1 hmem
      exact hfresh r hr (heq.trans hid)
    refine ⟨hi.setting, hi.valid, hi.config, ?_, hi.idle, ?_, ?_, ?_, ?_, ?_, hi.batches, ?_⟩
    · refine ⟨hi.sound.wf.enqueue rfl, ?_, hi.sound.labelled.prefill, hi.sound.labelled.decode,
        hi.sound.labelled.completed⟩
      intro p hp
      rcases List.mem_append.1 hp with hp | hp
      · exact hi.sound.labelled.pending p hp
      · rw [List.mem_singleton.1 hp]
        exact hid
    · exact congrArg (· + 1) hi.numbering
    · have hids := (ids_enqueue_perm s.engine.scheduler new).append_right
        (s.reports.map (·.requestId))
      rw [List.map_append, List.map_singleton, hid]
      exact (hids.trans (hi.places.cons _)).trans (List.perm_append_singleton _ _).symm
    · rw [List.map_append, List.map_singleton]
      exact (List.perm_append_singleton _ _).nodup_iff.2 (List.nodup_cons.2 ⟨hstranger, hi.once⟩)
    · intro r hr
      rcases List.mem_append.1 hr with hr | hr
      · exact ⟨(hi.admits r hr).1, (hi.admits r hr).2.trans (Nat.lt_succ_self _)⟩
      · rw [List.mem_singleton.1 hr]
        refine ⟨⟨rfl, ?_, ?_⟩, hid ▸ Nat.lt_succ_self _⟩
        · exact GenerationParams.maxTokens_pos_of_validate hparams
        · rw [← hi.setting]
          exact hfits
    · intro id hno
      rw [List.map_append, List.mem_append, not_or, List.map_singleton, List.mem_singleton] at hno
      obtain ⟨hdecoder, hlogs⟩ := hi.strangers id hno.1
      refine ⟨?_, hlogs⟩
      rw [← hdecoder]
      exact IdMap.get_insert_ne fun h => hno.2 h.symm
    · obtain ⟨fed, hR, hall⟩ := hi.courses
      refine ⟨fed, hR, fun r hr => ?_⟩
      rcases List.mem_append.1 hr with hr | hr
      · obtain ⟨w, hsteps, ht, hfed⟩ := hall r hr
        exact ⟨w, hsteps, ⟨ht.place.admitted hi.numbering (hfresh r hr) _ _, ht.reported,
          ht.entries, ht.generated, ht.texts⟩, hfed⟩
      · obtain rfl := List.mem_singleton.1 hr
        obtain ⟨-, hentries, htokens, htexts⟩ := hi.strangers new.id hstranger
        refine ⟨_, .refl, ⟨?_, ?_, hentries.symm, htokens.symm, htexts.symm⟩, ?_⟩
        · rw [Course.start, ← hi.setting]
          exact InferenceEngine.holdsAt_admitted hi.numbering _ _
        · rintro report ⟨⟩
        · rintro seq d ⟨⟩

end Stages

end Session

end PagedServing
