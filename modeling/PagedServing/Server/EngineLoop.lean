import PagedServing.Engine.State
import PagedServing.Library.Channel

/-! # The engine loop

`src/server.rs`: the task that owns the engine, with the submission queue before it and the
event channels of its clients. The loop is cut at every operation on a channel, so that
submissions and disconnects can come between any two of them.
-/

namespace PagedServing

abbrev ClientId := Nat

structure Admission where
  requestId : RequestId
  promptTokens : Nat
  deriving DecidableEq

inductive RequestEvent where
  | chunk (text : String) (logprobs : Option TokenLogprobs)
  | done (completed : CompletedRequest)
  deriving DecidableEq

/-- A submission; the other ends of its two channels are at the client. -/
structure Submission where
  prompt : String
  params : GenerationParams
  client : ClientId

/-- The handler of one submission: what its admission channel has brought it, and the
channel of its events. -/
structure Client where
  replies : List (Except EngineError Admission) := []
  events : Channel RequestEvent := {}

def submissionQueueCapacity : Nat := 1024

/-! ## Metrics -/

/-- `(utilization.clamp(0.0, 1.0) * 10_000.0).round() as u64`. -/
def kvUtilizationBp : F32 → Nat
  | .finite q =>
      match F32.mul (.finite (max 0 (min q 1))) (.finite 10000) with
      | .finite bp => ⌊bp + 1 / 2⌋.toNat
      | _ => 0
  | .infinity negative => if negative then 0 else 10000
  | .nan | .negZero => 0

structure SharedEngineMetrics where
  activeSequences : Nat := 0
  kvUtilizationBp : Nat := 0
  completedRequests : Nat := 0
  failedRequests : Nat := 0
  totalTokensGenerated : Nat := 0

def SharedEngineMetrics.update (metrics : EngineMetrics) : SharedEngineMetrics where
  activeSequences := metrics.activeSequences
  kvUtilizationBp := PagedServing.kvUtilizationBp metrics.memoryUtilization
  completedRequests := metrics.completedRequests
  failedRequests := metrics.failedRequests
  totalTokensGenerated := metrics.totalTokensGenerated

/-! ## The state of the server -/

/-- The locals of one turn of the loop: what is still to be delivered, what there was to
deliver, and whose channel has turned out to be closed. -/
structure TurnLocals where
  chunks : List StepChunk
  completed : List CompletedRequest
  completedLen : Nat
  chunksLen : Nat
  disconnected : List RequestId := []

/-- Where the loop is. -/
inductive Phase where
  | top
  | recv
  | drain
  | sending (locals : TurnLocals)
  | cancelling (locals : TurnLocals)
  | dispatching (locals : TurnLocals)
  | judging (progressed : Bool)
  | stalled (rest : List CompletedRequest)
  | publishing
  | returned

/-- The loop with its channels. `routed` is not in the program: it logs the events that the
loop has come to, each under the request it belongs to. -/
structure Server (σ τ δ : Type) where
  engine : InferenceEngine σ τ δ
  submissions : List Submission := []
  accepting : Bool := true
  waiters : IdMap ClientId := ∅
  clients : List Client := []
  idleSteps : Nat := 0
  metrics : SharedEngineMetrics := {}
  phase : Phase := .top
  routed : List (RequestId × RequestEvent) := []

namespace Server

variable {σ τ δ : Type}

def start (engine : InferenceEngine σ τ δ) : Server σ τ δ := { engine := engine }

/-! ## The turns of the loop -/

def withClient (v : Server σ τ δ) (client : ClientId) (f : Client → Client) : Server σ τ δ :=
  { v with clients := v.clients.modify client f }

/-- `tx.send(event)` for the event channel of a client, and whether it was accepted. -/
def sendEvent (v : Server σ τ δ) (client : ClientId) (event : RequestEvent) :
    Bool × Server σ τ δ :=
  ((v.clients[client]?.map fun c => (c.events.send event).1).getD false,
    v.withClient client fun c => { c with events := (c.events.send event).2 })

/-- `admit.send(result)`. -/
def reply (v : Server σ τ δ) (client : ClientId) (result : Except EngineError Admission) :
    Server σ τ δ :=
  v.withClient client fun c => { c with replies := c.replies ++ [result] }

def admitSubmission [GPUExecutorTrait σ] [TokenizerTrait τ δ] (v : Server σ τ δ)
    (submission : Submission) : Server σ τ δ :=
  let (result, engine) := v.engine.submitRequest submission.prompt submission.params
  let v := { v with engine := engine }
  match result with
  | .ok (requestId, promptTokens) =>
      let v := { v with waiters := v.waiters.insert requestId submission.client }
      v.reply submission.client (.ok ⟨requestId, promptTokens⟩)
  | .error err => v.reply submission.client (.error err)

/-- One turn of the loop over the chunks. -/
def sendChunk (v : Server σ τ δ) (locals : TurnLocals) (chunk : StepChunk) : Server σ τ δ :=
  let (requestId, text, logprobs) := chunk
  let event := RequestEvent.chunk text logprobs
  let v := { v with routed := v.routed ++ [(requestId, event)] }
  match v.waiters[requestId]? with
  | none => { v with phase := .sending locals }
  | some client =>
      let (accepted, v) := v.sendEvent client event
      let disconnected :=
        if accepted then locals.disconnected else locals.disconnected ++ [requestId]
      { v with phase := .sending { locals with disconnected := disconnected } }

/-- One turn of the loop over the clients found to be gone. -/
def cancelDisconnected (v : Server σ τ δ) (requestId : RequestId) : Server σ τ δ :=
  { v with
    waiters := v.waiters.erase requestId
    engine := (v.engine.cancelRequest requestId).2 }

/-- One turn of the loop of `dispatch_completed`. -/
def dispatchCompleted (v : Server σ τ δ) (completed : CompletedRequest) : Server σ τ δ :=
  let event := RequestEvent.done completed
  let v := { v with routed := v.routed ++ [(completed.requestId, event)] }
  match v.waiters[completed.requestId]? with
  | none => v
  | some client =>
      ({ v with waiters := v.waiters.erase completed.requestId }.sendEvent client event).2

variable [GPUExecutorTrait σ] [IncrementalDecoder δ] [TokenizerTrait τ δ]

def stepEngine (v : Server σ τ δ) : Server σ τ δ :=
  let (result, engine) := v.engine.stepEvents
  let v := { v with engine := engine }
  match result with
  | .ok events =>
      let locals : TurnLocals :=
        { chunks := events.chunks
          completed := events.completed
          completedLen := events.completed.length
          chunksLen := events.chunks.length }
      { v with phase := .sending locals }
  | .error _ => { v with phase := .judging false }

/-- The guard against a stall: a hundred turns without progress. -/
def judge (v : Server σ τ δ) (progressed : Bool) : Server σ τ δ :=
  if progressed then { v with idleSteps := 0, phase := .publishing }
  else if InferenceEngine.stallLimit ≤ v.idleSteps + 1 then
    let engine := (v.engine.failPendingRequests InferenceEngine.stallReason).2
    let ((stalled, _), engine) := engine.collectCompletedRequests
    { v with engine := engine, idleSteps := v.idleSteps + 1, phase := .stalled stalled }
  else { v with idleSteps := v.idleSteps + 1, phase := .publishing }

/-- The next thing that the loop does; `none` while it waits for a submission, and when it
has returned. -/
def loopStep (v : Server σ τ δ) : Option (Server σ τ δ) :=
  match v.phase with
  | .top => some { v with phase := if v.engine.scheduler.hasPendingWork then .drain else .recv }
  | .recv =>
      match v.submissions with
      | submission :: rest =>
          some { { v with submissions := rest }.admitSubmission submission with phase := .drain }
      | [] => if v.accepting then none else some { v with phase := .returned }
  | .drain =>
      match v.submissions with
      | submission :: rest => some ({ v with submissions := rest }.admitSubmission submission)
      | [] => some v.stepEngine
  | .sending locals =>
      match locals.chunks with
      | chunk :: rest => some (v.sendChunk { locals with chunks := rest } chunk)
      | [] => some { v with phase := .cancelling locals }
  | .cancelling locals =>
      match locals.disconnected with
      | requestId :: rest =>
          some { v.cancelDisconnected requestId with
            phase := .cancelling { locals with disconnected := rest } }
      | [] => some { v with phase := .dispatching locals }
  | .dispatching locals =>
      match locals.completed with
      | completed :: rest =>
          some { v.dispatchCompleted completed with
            phase := .dispatching { locals with completed := rest } }
      | [] =>
          some { v with phase := .judging (decide (0 < locals.completedLen) ||
            decide (0 < locals.chunksLen) || decide (0 < v.engine.getMetrics.activeSequences)) }
  | .judging progressed => some (v.judge progressed)
  | .stalled rest =>
      match rest with
      | completed :: rest => some { v.dispatchCompleted completed with phase := .stalled rest }
      | [] => some { v with idleSteps := 0, phase := .publishing }
  | .publishing =>
      some { v with metrics := .update v.engine.getMetrics, phase := .top }
  | .returned => none

/-! ## The clients -/

def submit (v : Server σ τ δ) (prompt : String) (params : GenerationParams) : Server σ τ δ :=
  { v with
    submissions := v.submissions ++ [⟨prompt, params, v.clients.length⟩]
    clients := v.clients ++ [{}] }

/-- A handler takes an event or goes away, or all submitters are gone. -/
inductive ClientStep : Server σ τ δ → Server σ τ δ → Prop
  | receive {v : Server σ τ δ} {client : ClientId} {c : Client} {events : Channel RequestEvent}
      (hclient : v.clients[client]? = some c) (h : c.events.receive = some events) :
      ClientStep v (v.withClient client fun c => { c with events := events })
  | disconnect {v : Server σ τ δ} {client : ClientId} {c : Client}
      (hclient : v.clients[client]? = some c) (h : c.events.connected = true) :
      ClientStep v (v.withClient client fun c => { c with events := c.events.disconnect })
  | close {v : Server σ τ δ} (h : v.accepting = true) : ClientStep v { v with accepting := false }

/-- What happens while nobody submits anything. -/
inductive Quiet : Server σ τ δ → Server σ τ δ → Prop
  | loop {v v' : Server σ τ δ} (h : v.loopStep = some v') : Quiet v v'
  | client {v v' : Server σ τ δ} (h : ClientStep v v') : Quiet v v'

inductive Step : Server σ τ δ → Server σ τ δ → Prop
  | quiet {v v' : Server σ τ δ} (h : Quiet v v') : Step v v'
  | submit {v : Server σ τ δ} (prompt : String) (params : GenerationParams)
      (hopen : v.accepting = true) (hroom : v.submissions.length < submissionQueueCapacity) :
      Step v (v.submit prompt params)

end Server

end PagedServing
