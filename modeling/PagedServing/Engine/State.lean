import PagedServing.Engine.Pipeline
import PagedServing.Engine.Tokenizer
import PagedServing.Library.TextSearch

/-! # Inference engine

`src/engine.rs`: admission, one step, the collection of finished requests and the
loop of `run`. Engine, tokenizer and backend are any instances of their traits.
-/

namespace PagedServing

open TextSearch

/-- `(request_id, decoded text, logprob of the token)`. -/
abbrev StepChunk := RequestId × String × Option TokenLogprobs

structure StepEvents where
  completed : List CompletedRequest := []
  chunks : List StepChunk := []

structure EngineMetrics where
  totalRequests : Nat
  completedRequests : Nat
  failedRequests : Nat
  totalTokensGenerated : Nat
  memoryUtilization : F32
  activeSequences : Nat

structure InferenceEngine (σ τ δ : Type) where
  config : EngineConfig
  tokenizer : τ
  scheduler : Scheduler
  executionPipeline : BatchExecutionPipeline σ
  decoders : IdMap δ
  eosTokenId : TokenId
  totalRequests : Nat
  completedRequestsCount : Nat
  failedRequestsCount : Nat
  totalTokensGenerated : Nat
  nextRequestId : RequestId

/-- Byte offset of the first occurrence of any stop string. -/
def findStopSequence (text : String) (stops : List String) : Option Nat :=
  ((stops.filter fun stop => !stop.isEmpty).filterMap fun stop => find text stop).min?

section Truncation

variable {τ δ : Type} [TokenizerTrait τ δ]

/-- The scan of `tokens_before_char`: `index` tokens of `len` bytes lie behind. -/
def countTokensBefore (tokenizer : τ) (byteOffset : Nat) : List TokenId → Nat → Nat → Nat
  | [], index, _ => index
  | token :: rest, index, len =>
      if byteOffset ≤ len then index
      else
        match TokenizerTrait.tryDecode tokenizer [token] with
        | .ok segment => countTokensBefore tokenizer byteOffset rest (index + 1) (len + byteLen segment)
        | .error _ => countTokensBefore tokenizer byteOffset rest (index + 1) len

def tokensBeforeChar (tokens : List TokenId) (tokenizer : τ) (byteOffset : Nat) : Nat :=
  countTokensBefore tokenizer byteOffset tokens 0 0

/-- How many output tokens to keep, when the output text contains a stop string. -/
def Request.stopKeep (tokenizer : τ) (req : Request) : Option Nat :=
  if req.params.stop.isEmpty then none
  else
    match TokenizerTrait.tryDecode tokenizer req.outputTokens with
    | .error _ => none
    | .ok text =>
        (findStopSequence text req.params.stop).map (tokensBeforeChar req.outputTokens tokenizer)

end Truncation

/-! ## Reports -/

def decodeFailed (message : String) : String := "tokenizer decode failed: " ++ message

section Reports

variable {τ δ : Type} [TokenizerTrait τ δ]

/-- What is reported for a terminal request. -/
def Request.report (tokenizer : τ) (eosTokenId : TokenId) (req : Request) : CompletedRequest :=
  let decodedOutput := TokenizerTrait.tryDecode tokenizer req.outputTokens
  let success :=
    match req.state, decodedOutput with
    | .completed, .ok _ => true
    | _, _ => false
  { requestId := req.id
    inputText := (TokenizerTrait.tryDecode tokenizer req.inputTokens).toOption
    outputText := decodedOutput.toOption.getD ""
    outputTokens := req.outputTokens
    success := success
    error :=
      match req.state, decodedOutput with
      | .failed message, _ => some message
      | _, .error message => some (decodeFailed message)
      | _, .ok _ => none
    finishReason :=
      if success then
        if req.stopSequenceHit || req.outputTokens.getLast? == some eosTokenId then some .stop
        else some .length
      else none
    logprobs :=
      if req.params.logprobs.isSome && !req.logprobs.isEmpty then some req.logprobs else none }

end Reports

namespace InferenceEngine

variable {σ τ δ : Type} [GPUExecutorTrait σ] [IncrementalDecoder δ] [TokenizerTrait τ δ]

/-- The engine over given parts. -/
def ofComponents (config : EngineConfig) (tokenizer : τ) (scheduler : Scheduler)
    (gpuExecutor : σ) : InferenceEngine σ τ δ where
  config := config
  tokenizer := tokenizer
  scheduler := scheduler
  executionPipeline := BatchExecutionPipeline.new gpuExecutor config
  decoders := ∅
  eosTokenId := TokenizerTrait.eosTokenId tokenizer
  totalRequests := 0
  completedRequestsCount := 0
  failedRequestsCount := 0
  totalTokensGenerated := 0
  nextRequestId := 1

/-- `with_components`: the configuration has to be accepted. -/
def withComponents (config : EngineConfig) (tokenizer : τ) (scheduler : Scheduler)
    (gpuExecutor : σ) : Except EngineError (InferenceEngine σ τ δ) :=
  match config.validate with
  | .error e => .error (.config e)
  | .ok _ => .ok (ofComponents config tokenizer scheduler gpuExecutor)

/-! ## Admission and cancellation -/

def unsupportedSampling (params : GenerationParams) : EngineError :=
  .unsupportedGenerationMode <|
    "backend only supports greedy decoding (temperature == 0.0, top_p == 1.0), got temperature = "
      ++ params.temperature.display ++ ", top_p = " ++ params.topP.display

def submitRequest (e : InferenceEngine σ τ δ) (text : String) (params : GenerationParams) :
    Except EngineError (RequestId × Nat) × InferenceEngine σ τ δ :=
  match params.validate with
  | .error err => (.error err, e)
  | .ok _ =>
      if !e.executionPipeline.capabilities.sampling && !params.isGreedy then
        (.error (unsupportedSampling params), e)
      else if text.isEmpty then (.error .emptyInput, e)
      else
        match TokenizerTrait.tryEncode e.tokenizer text with
        | .error message => (.error (.tokenization message), e)
        | .ok inputTokens =>
            let promptTokens := inputTokens.length
            if e.config.maxModelLen.toNat < promptTokens then
              (.error (.inputTooLong promptTokens e.config.maxModelLen), e)
            else
              let totalRequestedTokens := promptTokens + params.maxTokens.toNat
              if e.config.maxModelLen.toNat < totalRequestedTokens then
                (.error (.totalLengthTooLong totalRequestedTokens e.config.maxModelLen), e)
              else
                let requestId := e.nextRequestId
                match e.scheduler.addRequest (Request.new requestId inputTokens params) with
                | (.error err, scheduler) => (.error err, { e with scheduler := scheduler })
                | (.ok _, scheduler) =>
                    (.ok (requestId, promptTokens),
                      { e with
                        scheduler := scheduler
                        nextRequestId := e.nextRequestId + 1
                        totalRequests := e.totalRequests + 1
                        decoders := e.decoders.insert requestId
                          (TokenizerTrait.createDecoder e.tokenizer) })

def cancelRequest (e : InferenceEngine σ τ δ) (requestId : RequestId) :
    Bool × InferenceEngine σ τ δ :=
  let (found, scheduler) := e.scheduler.cancelByRequestId requestId
  (found, { e with scheduler := scheduler })

/-! ## Collecting finished requests -/

/-- The flushed tail of a decoder as chunks; a failing flush is only logged. -/
def tailChunks (requestId : RequestId) : Option δ → List StepChunk
  | none => []
  | some decoder =>
      match (IncrementalDecoder.finish decoder).1 with
      | .ok (some tail) => if tail.isEmpty then [] else [(requestId, tail, none)]
      | .ok none => []
      | .error _ => []

/-- One terminal request leaves the engine. -/
def collectOne (acc : InferenceEngine σ τ δ × List CompletedRequest × List StepChunk)
    (req : Request) : InferenceEngine σ τ δ × List CompletedRequest × List StepChunk :=
  let (e, results, tails) := acc
  let completed := req.report e.tokenizer e.eosTokenId
  let tails := if completed.success then tails ++ tailChunks req.id e.decoders[req.id]? else tails
  ({ e with
      decoders := e.decoders.erase req.id
      totalTokensGenerated := e.totalTokensGenerated + req.outputTokens.length
      completedRequestsCount := e.completedRequestsCount + completed.success.toNat
      failedRequestsCount := e.failedRequestsCount + (!completed.success).toNat },
    results ++ [completed], tails)

def collectCompletedRequests (e : InferenceEngine σ τ δ) :
    (List CompletedRequest × List StepChunk) × InferenceEngine σ τ δ :=
  let (completedRequests, scheduler) := e.scheduler.takeCompletedWithSeqIds
  let e := { e with scheduler := scheduler }
  if completedRequests.isEmpty then (([], []), e)
  else
    let e := { e with
      executionPipeline :=
        e.executionPipeline.sequencesFinished (completedRequests.map (·.1)) }
    let (e, results, tails) := (completedRequests.map (·.2)).foldl collectOne (e, [], [])
    ((results, tails), e)

/-! ## One step -/

def requestIdBySeq (o : SchedulerOutput) : IdMap RequestId :=
  (o.prefillSequences ++ o.decodeSequences).foldl
    (fun ids seq => ids.insert seq.seqId seq.request.id) ∅

/-- The tokens of an execution output, under the request each belongs to. -/
def generatedTokens (o : SchedulerOutput) (output : ExecutionOutput) : List (RequestId × TokenId) :=
  (output.seqIds.zip output.nextTokens).filterMap fun (seqId, token) =>
    (requestIdBySeq o)[seqId]?.map fun requestId => (requestId, token)

def stopCut (e : InferenceEngine σ τ δ) (requestId : RequestId) : Option Nat :=
  (e.scheduler.getRequestById requestId).bind (·.stopKeep e.tokenizer)

def stopOne (e : InferenceEngine σ τ δ) (cut : RequestId × Nat) : InferenceEngine σ τ δ :=
  { e with
    scheduler := (e.scheduler.completeByStopSequence cut.1 cut.2).2
    decoders := e.decoders.erase cut.1 }

/-- The stop hits among the requests of a step, found before any of them is stopped. -/
def toStop (e : InferenceEngine σ τ δ) (generated : List (RequestId × TokenId)) :
    List (RequestId × Nat) :=
  generated.filterMap fun g => (e.stopCut g.1).map (Prod.mk g.1)

def applyStopSequences (e : InferenceEngine σ τ δ) (generated : List (RequestId × TokenId)) :
    InferenceEngine σ τ δ :=
  (e.toStop generated).foldl stopOne e

/-- The logprob entry that a chunk carries. -/
def tokenLogprobs (e : InferenceEngine σ τ δ) (requestId : RequestId) : Option TokenLogprobs :=
  match e.scheduler.getRequestById requestId with
  | some req => if req.params.logprobs.isSome then req.logprobs.getLast? else none
  | none => none

/-- One generated token goes through the decoder of its request. -/
def pushToken (acc : InferenceEngine σ τ δ × List StepChunk) (entry : RequestId × TokenId) :
    InferenceEngine σ τ δ × List StepChunk :=
  let (e, chunks) := acc
  let (requestId, token) := entry
  match e.decoders[requestId]? with
  | none => (e, chunks)
  | some decoder =>
      let logprobs := e.tokenLogprobs requestId
      let (pushed, decoder) := IncrementalDecoder.push decoder token
      let e := { e with decoders := e.decoders.insert requestId decoder }
      match pushed with
      | .ok (some text) =>
          (e, if text.isEmpty then chunks else chunks ++ [(requestId, text, logprobs)])
      | .ok none => (e, chunks)
      | .error message =>
          ({ e with scheduler :=
              (e.scheduler.failByRequestId requestId (decodeFailed message)).2 }, chunks)

/-- The part of a step after a batch has been executed, or when there was none. -/
def finishStep (e : InferenceEngine σ τ δ) (generated : List (RequestId × TokenId)) :
    StepEvents × InferenceEngine σ τ δ :=
  let e := e.applyStopSequences generated
  let (e, chunks) := generated.foldl pushToken (e, [])
  let ((completed, tails), e) := e.collectCompletedRequests
  ({ completed := completed, chunks := chunks ++ tails }, e)

def stepEvents (e : InferenceEngine σ τ δ) :
    Except EngineError StepEvents × InferenceEngine σ τ δ :=
  let (schedulerOutput, scheduler) := e.scheduler.schedule
  let e := { e with scheduler := scheduler }
  if schedulerOutput.isEmpty then
    let (events, e) := e.finishStep []
    (.ok events, e)
  else
    let (result, executionPipeline) := e.executionPipeline.execute schedulerOutput
    let e := { e with executionPipeline := executionPipeline }
    match result with
    | .ok executionOutput =>
        let generated := generatedTokens schedulerOutput executionOutput
        let e := { e with
          scheduler := e.scheduler.updateSequences executionOutput e.eosTokenId }
        let (events, e) := e.finishStep generated
        (.ok events, e)
    | .error engineError =>
        let e := { e with
          scheduler :=
            e.scheduler.failSequences schedulerOutput.seqIds engineError.display }
        let ((completed, tails), e) := e.collectCompletedRequests
        if completed.isEmpty then (.error engineError, e)
        else (.ok { completed := completed, chunks := tails }, e)

/-! ## The loop of `run` -/

def failPendingRequests (e : InferenceEngine σ τ δ) (reason : String) :
    Nat × InferenceEngine σ τ δ :=
  let (failed, scheduler) := e.scheduler.failPendingRequests reason
  (failed, { e with scheduler := scheduler })

def stallLimit : Nat := 100

def stallReason : String := "request 因 KV 预算/块不足永远无法启动"

/-- The `while` loop, by fuel; `none` when the fuel runs out before the loop ends. -/
def runLoop : Nat → InferenceEngine σ τ δ → List CompletedRequest → Nat →
    Option (List CompletedRequest × InferenceEngine σ τ δ)
  | 0, _, _, _ => none
  | fuel + 1, e, allCompleted, idleSteps =>
      if !e.scheduler.hasPendingWork then some (allCompleted, e)
      else
        let (result, e) := e.stepEvents
        let completed :=
          match result with
          | .ok events => events.completed
          | .error _ => []
        let allCompleted := allCompleted ++ completed
        if !completed.isEmpty || 0 < e.scheduler.numActiveSequences then
          runLoop fuel e allCompleted 0
        else if stallLimit ≤ idleSteps + 1 then
          some (allCompleted, (e.failPendingRequests stallReason).2)
        else runLoop fuel e allCompleted (idleSteps + 1)

def run (fuel : Nat) (e : InferenceEngine σ τ δ) :
    Option (List CompletedRequest × InferenceEngine σ τ δ) :=
  let ((first, _), e) := e.collectCompletedRequests
  match runLoop fuel e first 0 with
  | none => none
  | some (allCompleted, e) =>
      let ((final, _), e) := e.collectCompletedRequests
      some (allCompleted ++ final, e)

def getMetrics (e : InferenceEngine σ τ δ) : EngineMetrics where
  totalRequests := e.totalRequests
  completedRequests := e.completedRequestsCount
  failedRequests := e.failedRequestsCount
  totalTokensGenerated := e.totalTokensGenerated
  memoryUtilization := e.scheduler.kvCache.getMemoryStats.utilization
  activeSequences := e.scheduler.numActiveSequences

end InferenceEngine

end PagedServing
