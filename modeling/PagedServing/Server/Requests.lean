import PagedServing.Engine.Footprint
import PagedServing.Library.JsonValue
import PagedServing.Server.ResponseLogprobs

/-! # HTTP requests

`src/server.rs`: what a completion or chat request has to satisfy before it is submitted, and the
status a client gets when it is refused. An overload passes; every other refusal is for good.
-/

namespace PagedServing

/-! ## Errors -/

def ApiError.ofEngineError (err : EngineError) : ApiError :=
  match err with
  | .emptyInput | .inputTooLong _ _ | .totalLengthTooLong _ _ | .invalidMaxTokens _
  | .invalidTemperature _ | .invalidTopP _ | .tooManyStopSequences _
  | .unsupportedGenerationMode _ => .badRequest err.display
  | .memoryPressure | .maxConcurrentSequencesReached _ => .overloaded err.display
  | _ => .internal err.display

/-- An error response: its status, its body and whether it asks to come back. -/
structure ErrorResponse where
  status : Nat
  type : String
  message : String
  retryAfter : Option String
  deriving DecidableEq

def ApiError.intoResponse (err : ApiError) : ErrorResponse :=
  let (status, errorType, message) :=
    match err with
    | .badRequest m => (400, "invalid_request_error", m)
    | .notFound m => (404, "invalid_request_error", m)
    | .overloaded m => (429, "overloaded_error", m)
    | .internal m => (500, "internal_error", m)
  { status := status
    type := errorType
    message := message
    retryAfter := if status = 429 then some "1" else none }

/-! ## Parameters -/

inductive StopSequence where
  | single (s : String)
  | multiple (v : List String)

def StopSequence.isEmpty : StopSequence → Bool
  | .single s => s.isEmpty
  | .multiple v => v.isEmpty

def StopSequence.toVec : StopSequence → List String
  | .single s => [s]
  | .multiple v => v

inductive LogprobsParam where
  | bool (b : Bool)
  | count (k : UInt64)

def logprobsParam : Option LogprobsParam → Except ApiError (Option Nat)
  | none => .ok none
  | some (.bool false) => .ok none
  | some (.bool true) => .ok (some 1)
  | some (.count k) =>
      if k = 0 then .ok none
      else if k ≤ 5 then .ok (some k.toNat)
      else .error (.badRequest ("logprobs must be between 0 and 5, got " ++ toString k))

/-- The parameters that no backend implements. -/
structure UnsupportedParams where
  seed : Option Int64 := none
  echo : Option Bool := none
  suffix : Option String := none
  frequencyPenalty : Option F32 := none
  presencePenalty : Option F32 := none
  bestOf : Option UInt32 := none
  streamOptions : Option JsonValue := none
  tools : Option JsonValue := none
  toolChoice : Option JsonValue := none
  responseFormat : Option JsonValue := none
  functionCall : Option JsonValue := none
  functions : Option JsonValue := none

def isEmptyArray : JsonValue → Bool
  | .array items => items.isEmpty
  | _ => false

def unsupported (name : String) : Except ApiError Unit :=
  .error (.badRequest ("parameter '" ++ name ++ "' is not supported by the CPU reference backend"))

def rejectUnsupportedParams (p : UnsupportedParams) : Except ApiError Unit :=
  if p.seed.isSome then unsupported "seed"
  else if p.echo = some true then unsupported "echo"
  else if p.suffix.any fun s => !s.isEmpty then unsupported "suffix"
  else if p.frequencyPenalty.any fun v => !v.isFinite then
    .error (.badRequest "frequency_penalty must be a finite number")
  else if p.presencePenalty.any fun v => !v.isFinite then
    .error (.badRequest "presence_penalty must be a finite number")
  else if p.frequencyPenalty.any fun v => !v.eq (.finite 0) then unsupported "frequency_penalty"
  else if p.presencePenalty.any fun v => !v.eq (.finite 0) then unsupported "presence_penalty"
  else if p.bestOf.any fun v => v ≠ 1 then unsupported "best_of"
  else if p.streamOptions.isSome then unsupported "stream_options"
  else if p.tools.any fun v => !isEmptyArray v then unsupported "tools"
  else if p.toolChoice.isSome then unsupported "tool_choice"
  else if p.responseFormat.isSome then unsupported "response_format"
  else if p.functionCall.isSome then unsupported "function_call"
  else if p.functions.any fun v => !isEmptyArray v then unsupported "functions"
  else .ok ()

def stopSequences : Option StopSequence → List String
  | some s => if s.isEmpty then [] else s.toVec
  | none => []

def resolveModel (config : EngineConfig) : Option String → Except ApiError String
  | some name =>
      if name = config.serving.modelName then .ok name
      else .error (.notFound ("model '" ++ name ++ "' not found"))
  | none => .ok config.serving.modelName

def generationParams (maxTokens : Option UInt32) (temperature topP : Option F32)
    (stop : List String) (logprobs : Option Nat) (priority : Option UInt8) :
    Except ApiError GenerationParams :=
  let params : GenerationParams :=
    { maxTokens := maxTokens.getD 16
      temperature := temperature.getD (.finite 0)
      topP := topP.getD (.finite 1)
      stop := stop
      logprobs := logprobs
      priority := priority.getD 0 }
  match params.validate with
  | .ok _ => .ok params
  | .error err => .error (.badRequest err.display)

def validatePrompt (prompt : String) : Except ApiError String :=
  if prompt.toList.all isWhiteSpace then .error (.badRequest "prompt must not be empty")
  else .ok prompt

def maxCandidates : Nat := 16

def candidateCount (n : Option UInt32) : Except ApiError Nat :=
  let n := (n.getD 1).toNat
  if n = 0 then .error (.badRequest "n must be at least 1")
  else if maxCandidates < n then
    .error (.badRequest ("n must be at most " ++ toString maxCandidates))
  else .ok n

/-! ## Requests -/

/-- What completion and chat requests have in common. -/
structure RequestOptions where
  model : Option String := none
  maxTokens : Option UInt32 := none
  temperature : Option F32 := none
  topP : Option F32 := none
  stream : Option Bool := none
  stop : Option StopSequence := none
  n : Option UInt32 := none
  logprobs : Option LogprobsParam := none
  priority : Option UInt8 := none
  unsupported : UnsupportedParams := {}

structure CompletionRequest extends RequestOptions where
  prompt : String

structure ChatMessage where
  role : String
  content : String
  deriving DecidableEq

structure ChatCompletionRequest extends RequestOptions where
  messages : List ChatMessage

structure PreparedGenerationRequest where
  model : String
  prompt : String
  params : GenerationParams
  stream : Bool
  n : Nat
  deriving DecidableEq

/-- The fields of a prepared request, in the order in which they are checked. -/
def RequestOptions.prepare (o : RequestOptions) (config : EngineConfig) (prompt : String) :
    Except ApiError PreparedGenerationRequest := do
  let model ← resolveModel config o.model
  let logprobs ← logprobsParam o.logprobs
  let params ←
    generationParams o.maxTokens o.temperature o.topP (stopSequences o.stop) logprobs o.priority
  let n ← candidateCount o.n
  return { model, prompt, params, stream := o.stream.getD false, n }

def prepareCompletionRequest (config : EngineConfig) (request : CompletionRequest) :
    Except ApiError PreparedGenerationRequest := do
  rejectUnsupportedParams request.unsupported
  let prompt ← validatePrompt request.prompt
  request.prepare config prompt

/-- The first message is set apart when it is of the system. -/
def qwen2ChatPart (i : Nat) (message : ChatMessage) : String :=
  if i = 0 ∧ message.role = "system" then
    "<|im_start|>system\n" ++ message.content ++ "<|im_end|>"
  else "<|im_start|>" ++ message.role ++ "\n" ++ message.content ++ "<|im_end|>"

def qwen2ChatPrompt (messages : List ChatMessage) : String :=
  "\n".intercalate (messages.mapIdx qwen2ChatPart ++ ["<|im_start|>assistant"])

def buildChatPrompt (kind : TokenizerKind) (messages : List ChatMessage) : String :=
  match kind with
  | .huggingFace => qwen2ChatPrompt messages
  | .simple =>
      "\n".intercalate (messages.map fun message => message.role ++ ": " ++ message.content)

def isChatRole (role : String) : Bool := role = "system" || role = "user" || role = "assistant"

/-- The checks of `prepare_chat_request` on the messages. -/
def validateMessages (messages : List ChatMessage) : Except ApiError Unit :=
  if messages.isEmpty then .error (.badRequest "messages must not be empty")
  else
    match messages.find? fun message => !isChatRole message.role with
    | some message =>
        .error (.badRequest ("invalid role '" ++ message.role ++
          "': expected one of system, user, assistant"))
    | none => .ok ()

def prepareChatRequest (config : EngineConfig) (request : ChatCompletionRequest) :
    Except ApiError PreparedGenerationRequest := do
  rejectUnsupportedParams request.unsupported
  validateMessages request.messages
  let prompt ← validatePrompt (buildChatPrompt config.tokenizer.kind request.messages)
  request.prepare config prompt

/-- The result of a submission as the handler gets it. -/
def AppState.submit {σ τ δ : Type} [GPUExecutorTrait σ] [TokenizerTrait τ δ]
    (engine : InferenceEngine σ τ δ) (p : PreparedGenerationRequest) :
    Except ApiError (RequestId × Nat) :=
  (engine.submitRequest p.prompt p.params).1.mapError ApiError.ofEngineError

/-! ## Prepared requests -/

/-- What a request has been checked for before it is submitted. -/
structure PreparedGenerationRequest.Checked (p : PreparedGenerationRequest)
    (config : EngineConfig) : Prop where
  model : p.model = config.serving.modelName
  prompt : p.prompt.toList.all isWhiteSpace = false
  params : p.params.validate = .ok ()
  n_pos : 1 ≤ p.n
  n_le : p.n ≤ maxCandidates

section Prepared

variable {config : EngineConfig} {p : PreparedGenerationRequest} {o : RequestOptions}
  {prompt : String}

theorem resolveModel_eq_ok {requested : Option String} {model : String}
    (h : resolveModel config requested = .ok model) : model = config.serving.modelName := by
  rw [resolveModel.eq_def] at h
  split at h
  · split at h
    next heq => exact (Except.ok.inj h).symm.trans heq
    next => cases h
  · exact (Except.ok.inj h).symm

theorem generationParams_eq_ok {maxTokens : Option UInt32} {temperature topP : Option F32}
    {stop : List String} {logprobs : Option Nat} {priority : Option UInt8}
    {params : GenerationParams}
    (h : generationParams maxTokens temperature topP stop logprobs priority = .ok params) :
    params.validate = .ok () := by
  rw [generationParams] at h
  split at h
  next u hvalid =>
    obtain rfl := Except.ok.inj h
    exact hvalid
  next => cases h

theorem candidateCount_eq_ok {requested : Option UInt32} {n : Nat}
    (h : candidateCount requested = .ok n) : 1 ≤ n ∧ n ≤ maxCandidates := by
  rw [candidateCount] at h
  split at h
  next => cases h
  next hpos =>
    split at h
    next => cases h
    next hle =>
      obtain rfl := Except.ok.inj h
      exact ⟨Nat.one_le_iff_ne_zero.2 hpos, Nat.not_lt.1 hle⟩

theorem validatePrompt_eq_ok {checked : String} (h : validatePrompt prompt = .ok checked) :
    checked = prompt ∧ prompt.toList.all isWhiteSpace = false := by
  rw [validatePrompt] at h
  split at h
  next => cases h
  next hno => exact ⟨(Except.ok.inj h).symm, Bool.eq_false_iff.2 hno⟩

theorem bind_eq_ok {ε α β : Type} {x : Except ε α} {f : α → Except ε β} {b : β}
    (h : x >>= f = .ok b) : ∃ a, x = .ok a ∧ f a = .ok b := by
  cases x with
  | error err => cases h
  | ok a => exact ⟨a, rfl, h⟩

theorem RequestOptions.checked_of_prepare (h : o.prepare config prompt = .ok p)
    (hprompt : prompt.toList.all isWhiteSpace = false) : p.Checked config := by
  obtain ⟨model, hmodel, h⟩ := bind_eq_ok h
  obtain ⟨logprobs, -, h⟩ := bind_eq_ok h
  obtain ⟨params, hparams, h⟩ := bind_eq_ok h
  obtain ⟨n, hn, h⟩ := bind_eq_ok h
  obtain rfl := Except.ok.inj h
  obtain ⟨hpos, hle⟩ := candidateCount_eq_ok hn
  exact ⟨resolveModel_eq_ok hmodel, hprompt, generationParams_eq_ok hparams, hpos, hle⟩

theorem checked_of_prepareCompletionRequest {request : CompletionRequest}
    (h : prepareCompletionRequest config request = .ok p) : p.Checked config := by
  obtain ⟨-, -, h⟩ := bind_eq_ok h
  obtain ⟨prompt, hprompt, h⟩ := bind_eq_ok h
  obtain ⟨rfl, hblank⟩ := validatePrompt_eq_ok hprompt
  exact RequestOptions.checked_of_prepare h hblank

theorem checked_of_prepareChatRequest {request : ChatCompletionRequest}
    (h : prepareChatRequest config request = .ok p) : p.Checked config := by
  obtain ⟨-, -, h⟩ := bind_eq_ok h
  obtain ⟨-, -, h⟩ := bind_eq_ok h
  obtain ⟨prompt, hprompt, h⟩ := bind_eq_ok h
  obtain ⟨rfl, hblank⟩ := validatePrompt_eq_ok hprompt
  exact RequestOptions.checked_of_prepare h hblank

end Prepared

/-! ## Refusals -/

section Refusals

variable {σ τ δ : Type} [GPUExecutorTrait σ] [TokenizerTrait τ δ]
  {p : PreparedGenerationRequest} {config : EngineConfig} {err : EngineError}

/-- The checks of a submission that do not look at what the engine is doing. -/
def Setting.standing (x : Setting τ) (capabilities : ExecutorCapabilities)
    (p : PreparedGenerationRequest) : Except EngineError (List TokenId) :=
  if !capabilities.sampling && !p.params.isGreedy then
    .error (InferenceEngine.unsupportedSampling p.params)
  else
    match TokenizerTrait.tryEncode x.tokenizer p.prompt with
    | .error message => .error (.tokenization message)
    | .ok inputTokens =>
        if x.config.maxModelLen.toNat < inputTokens.length then
          .error (.inputTooLong inputTokens.length x.config.maxModelLen)
        else if x.config.maxModelLen.toNat < inputTokens.length + p.params.maxTokens.toNat then
          .error (.totalLengthTooLong (inputTokens.length + p.params.maxTokens.toNat)
            x.config.maxModelLen)
        else .ok inputTokens

/-- A checked request is refused by a standing check or by the scheduler. -/
theorem InferenceEngine.submitRequest_checked (e : InferenceEngine σ τ δ) (hp : p.Checked config) :
    (e.submitRequest p.prompt p.params).1 =
      (e.setting.standing e.executionPipeline.capabilities p).bind fun inputTokens =>
        (e.scheduler.addRequest (Request.new e.nextRequestId inputTokens p.params)).1.map fun _ =>
          (e.nextRequestId, inputTokens.length) := by
  have hprompt : p.prompt.isEmpty = false := by
    by_contra hempty
    have hnil : p.prompt.toList = [] := by simpa using hempty
    have hblank := hp.prompt
    rw [hnil] at hblank
    cases hblank
  rw [submitRequest, hp.params, Setting.standing]
  dsimp only
  split
  next => rfl
  next =>
    rw [hprompt, if_neg Bool.false_ne_true, setting_tokenizer, setting_config]
    cases TokenizerTrait.tryEncode e.tokenizer p.prompt with
    | error message => rfl
    | ok inputTokens =>
        dsimp only
        split
        next => rfl
        next =>
          split
          next => rfl
          next =>
            rcases hadd : e.scheduler.addRequest
              (Request.new e.nextRequestId inputTokens p.params) with ⟨err | id, sch⟩ <;>
                simp [Except.bind, Except.map, hadd]

/-- A refusal that says when to come back. -/
def ApiError.Passing (err : ApiError) : Prop := err.intoResponse.retryAfter = some "1"

theorem ApiError.passing_overloaded {err : ApiError} :
    err.Passing ↔ ∃ message, err = .overloaded message := by
  cases err <;> simp [Passing, intoResponse]

theorem ApiError.passing_iff :
    (ofEngineError err).Passing ↔
      err = .memoryPressure ∨ ∃ limit, err = .maxConcurrentSequencesReached limit := by
  rw [passing_overloaded, ofEngineError.eq_def]
  cases err <;> simp

theorem Setting.standing_lasting {x : Setting τ} {capabilities : ExecutorCapabilities}
    (h : x.standing capabilities p = .error err) : ¬ (ApiError.ofEngineError err).Passing := by
  rw [ApiError.passing_iff]
  rw [standing] at h
  split at h
  next =>
    obtain rfl := Except.error.inj h
    simp [InferenceEngine.unsupportedSampling]
  next =>
    split at h
    next =>
      obtain rfl := Except.error.inj h
      simp
    next =>
      split at h
      next =>
        obtain rfl := Except.error.inj h
        simp
      next =>
        split at h
        next =>
          obtain rfl := Except.error.inj h
          simp
        next => cases h

theorem Scheduler.addRequest_passing {s : Scheduler} {request : Request}
    (h : (s.addRequest request).1 = .error err) : (ApiError.ofEngineError err).Passing := by
  rw [ApiError.passing_iff]
  rw [addRequest] at h
  split at h
  next => exact .inl (Except.error.inj h).symm
  next =>
    split at h
    next => exact .inr ⟨_, (Except.error.inj h).symm⟩
    next => cases h

/-- An idle scheduler takes a request. -/
theorem Scheduler.addRequest_of_idle {s : Scheduler} (hw : s.Wf) (hvalid : s.config.Valid)
    (hidle : s.hasPendingWork = false) (request : Request) :
    (s.addRequest request).1 = .ok s.nextSeqId := by
  simp only [hasPendingWork, Bool.or_eq_false_iff, Bool.not_eq_false',
    List.isEmpty_iff, Std.ExtTreeMap.isEmpty_iff] at hidle
  obtain ⟨⟨hpending, hprefill⟩, hdecode⟩ := hidle
  have hunused : s.kvCache.getMemoryStats.usedBlocks = 0 := by
    rw [hw.usedBlocks_eq_active hprefill, activeSequences, hprefill, hdecode]
    rfl
  have hactive : s.numActiveSequences = 0 := by
    rw [numActiveSequences, hprefill, hdecode]
    rfl
  obtain ⟨q, hq, hpos, -⟩ := hvalid.threshold
  have hopen : s.updateMemoryPressure.underMemoryPressure = false := by
    simp [updateMemoryPressure, MemoryStats.utilization_of_unused hunused, hq, F32.le, hpos]
  rw [addRequest, hopen, if_neg Bool.false_ne_true, if_neg]
  · rfl
  · have hroom := hvalid.maxNumSeqs_pos
    change ¬ s.config.maxNumSeqs.toNat ≤ s.pendingQueue.length + s.numActiveSequences
    rw [hpending, hactive]
    exact Nat.not_le.2 hroom

theorem Setting.status_of_standing {x : Setting τ} {capabilities : ExecutorCapabilities}
    (h : x.standing capabilities p = .error err) :
    (ApiError.ofEngineError err).intoResponse.status = 400 ∨
      (ApiError.ofEngineError err).intoResponse.status = 500 ∧
        ∃ message, TokenizerTrait.tryEncode x.tokenizer p.prompt = .error message := by
  rw [standing] at h
  split at h
  next => exact .inl (Except.error.inj h ▸ rfl)
  next =>
    split at h
    next message hencode => exact .inr ⟨Except.error.inj h ▸ rfl, message, hencode⟩
    next =>
      split at h
      next => exact .inl (Except.error.inj h ▸ rfl)
      next =>
        split at h
        next => exact .inl (Except.error.inj h ▸ rfl)
        next => cases h

end Refusals

/-- What one refusal of a submission tells about other submissions of the same request. -/
structure ApiError.Lasts {σ τ δ : Type} [GPUExecutorTrait σ] [TokenizerTrait τ δ] (err : ApiError)
    (tokenizer : τ) (p : PreparedGenerationRequest) (e : InferenceEngine σ τ δ) : Prop where
  status : err.intoResponse.status = 429 ∧ err.Passing ∨ ¬ err.Passing ∧
    (err.intoResponse.status = 400 ∨ err.intoResponse.status = 500 ∧
      ∃ message, TokenizerTrait.tryEncode tokenizer p.prompt = .error message)
  lasting : ¬ err.Passing → AppState.submit e p = .error err
  passing : err.Passing → ∀ err', AppState.submit e p = .error err' → err'.Passing
  idle : err.Passing → e.scheduler.hasPendingWork = false →
    ∃ admission, AppState.submit e p = .ok admission

namespace Session

variable {σ τ δ : Type} [GPUExecutorTrait σ] [IncrementalDecoder δ] [TokenizerTrait τ δ]
  {config : EngineConfig} {tokenizer : τ} {gpuExecutor gpuExecutor' : σ} {s s' : Session σ τ δ}

/-- A request that has passed the checks of its handler is refused at any time or, if the client is
asked to come back, only while the engine is busy. -/
theorem lasts_of_refused (hs : s.Reachable config tokenizer gpuExecutor)
    (hs' : s'.Reachable config tokenizer gpuExecutor')
    (hcapabilities : s'.engine.executionPipeline.capabilities =
      s.engine.executionPipeline.capabilities) {p : PreparedGenerationRequest}
    (hp : (∃ request, prepareCompletionRequest config request = .ok p) ∨
      ∃ request, prepareChatRequest config request = .ok p) {err : ApiError}
    (h : AppState.submit s.engine p = .error err) : err.Lasts tokenizer p s'.engine := by
  have hchecked : p.Checked config := by
    rcases hp with ⟨request, hp⟩ | ⟨request, hp⟩
    · exact checked_of_prepareCompletionRequest hp
    · exact checked_of_prepareChatRequest hp
  have hi := hs.inv_any.1
  have hi' := hs'.inv_any.1
  have hsubmit' := s'.engine.submitRequest_checked hchecked
  rw [AppState.submit, s.engine.submitRequest_checked hchecked, hi.setting] at h
  rw [hi'.setting, hcapabilities] at hsubmit'
  cases hstanding : (settingOf config tokenizer).standing
      s.engine.executionPipeline.capabilities p with
  | error refusal =>
      rw [hstanding] at h hsubmit'
      obtain rfl : ApiError.ofEngineError refusal = err := Except.error.inj h
      have hlasting := Setting.standing_lasting hstanding
      refine ⟨.inr ⟨hlasting, Setting.status_of_standing hstanding⟩, fun _ => ?_,
        fun hpassing => absurd hpassing hlasting, fun hpassing => absurd hpassing hlasting⟩
      rw [AppState.submit, hsubmit']
      rfl
  | ok inputTokens =>
      rw [hstanding] at h hsubmit'
      have hpassing {e : InferenceEngine σ τ δ} {err : ApiError}
          (h : (((Except.ok inputTokens : Except EngineError (List TokenId)).bind fun inputTokens =>
            (e.scheduler.addRequest (Request.new e.nextRequestId inputTokens p.params)).1.map
              fun _ => (e.nextRequestId, inputTokens.length)).mapError ApiError.ofEngineError) =
            .error err) : err.Passing := by
        cases hadd : (e.scheduler.addRequest
            (Request.new e.nextRequestId inputTokens p.params)).1 with
        | ok id => simp [Except.bind, Except.map, Except.mapError, hadd] at h
        | error refusal =>
            simp only [Except.bind, Except.map, Except.mapError, hadd] at h
            exact Except.error.inj h ▸ Scheduler.addRequest_passing hadd
      have hnow := hpassing h
      refine ⟨.inl ⟨?_, hnow⟩, fun hlasting => absurd hnow hlasting, fun _ err' h' => ?_,
        fun _ hidle => ?_⟩
      · obtain ⟨message, rfl⟩ := ApiError.passing_overloaded.1 hnow
        rfl
      · rw [AppState.submit, hsubmit'] at h'
        exact hpassing h'
      · have hvalid : s'.engine.scheduler.config.Valid := hi'.config ▸ hi'.valid
        rw [AppState.submit, hsubmit']
        exact ⟨_, congrArg
          (fun result : Except EngineError SeqId =>
            (result.map fun _ => (s'.engine.nextRequestId, inputTokens.length)).mapError
              ApiError.ofEngineError)
          (Scheduler.addRequest_of_idle hi'.sound.wf hvalid hidle
            (Request.new s'.engine.nextRequestId inputTokens p.params))⟩

def singleConfig : EngineConfig := { smallConfig with maxNumSeqs := 1, maxBatchSize := 1 }

def singleRequest : CompletionRequest := { prompt := "a", maxTokens := some 2 }

def singlePrepared : PreparedGenerationRequest :=
  ⟨"paged-serving", "a", { maxTokens := 2 }, false, 1⟩

def singleSession : Session (FunctionBackend stopAtFour) SimpleTokenizer SimpleDecoder :=
  new singleConfig SimpleTokenizer.new ⟨fun _ => []⟩

/-- The only place is taken for a while. -/
theorem lasts_of_refused_single :
    ∃ err, AppState.submit (singleSession.submit "a" { maxTokens := 2 }).engine singlePrepared =
        .error err ∧
      err.Lasts SimpleTokenizer.new singlePrepared singleSession.engine := by
  have hvalid : singleConfig.validate = .ok () := by decide +kernel
  have hprepared : prepareCompletionRequest singleConfig singleRequest = .ok singlePrepared := by
    decide +kernel
  have hrefused : AppState.submit (singleSession.submit "a" { maxTokens := 2 }).engine
      singlePrepared = .error (.overloaded "超出最大并发序列数: 1") := by
    decide +kernel
  have hbusy : (singleSession.submit "a" { maxTokens := 2 }).Reachable singleConfig
      SimpleTokenizer.new ⟨fun _ => []⟩ := ⟨hvalid, [.submitRequest "a" { maxTokens := 2 }], rfl⟩
  have hfresh : singleSession.Reachable singleConfig SimpleTokenizer.new ⟨fun _ => []⟩ :=
    ⟨hvalid, [], rfl⟩
  exact ⟨_, hrefused,
    lasts_of_refused hbusy hfresh rfl (.inl ⟨singleRequest, hprepared⟩) hrefused⟩

end Session

end PagedServing
