import PagedServing.Library.FanIn
import PagedServing.Server.Events
import PagedServing.Server.ResponseLogprobs

/-! # The stream of several candidates

`src/server.rs`: `stream_response_multi` and the payloads of `StreamKind`. A forwarding task for
each candidate brings its events into one channel; the loop makes a stream of them.
-/

namespace PagedServing

open Relation LabelledLog

/-! ## Payloads -/

inductive StreamKind where
  | completion
  | chat
  deriving DecidableEq

/-- The `text` of a completion, or the `delta` of a chat, whose `content` may be missing. -/
inductive ChoiceBody where
  | text (text : String)
  | delta (content : Option String)
  deriving DecidableEq

def ChoiceBody.content : ChoiceBody → String
  | .text said => said
  | .delta content => content.getD ""

structure StreamChoice where
  index : Nat
  body : ChoiceBody
  finishReason : Option String
  logprobs : Option LogprobsOutput := none
  deriving DecidableEq

structure Usage where
  promptTokens : Nat
  completionTokens : Nat
  totalTokens : Nat
  deriving DecidableEq

structure SseMeta where
  id : String
  created : Nat
  model : String

structure StreamPayload where
  id : String
  object : String
  created : Nat
  model : String
  choices : List StreamChoice
  usage : Option Usage := none
  deriving DecidableEq

inductive SseData where
  | payload (payload : StreamPayload)
  | error (message type : String)
  | done
  deriving DecidableEq

namespace StreamKind

def object : StreamKind → String
  | .completion => "text_completion"
  | .chat => "chat.completion.chunk"

def body (kind : StreamKind) (content : Option String) : ChoiceBody :=
  match kind with
  | .completion => .text (content.getD "")
  | .chat => .delta content

/-- Only the choice that the chunk comes from has something to say. -/
def multiChunkPayload (kind : StreamKind) (sse : SseMeta) (n index : Nat) (chunk : String)
    (logprobs : Option LogprobsOutput) : StreamPayload where
  id := sse.id
  object := kind.object
  created := sse.created
  model := sse.model
  choices := (List.range n).map fun i =>
    { index := i
      body := kind.body (if i = index then some chunk else none)
      finishReason := none
      logprobs := if i = index then logprobs else none }

def multiFinalPayload (kind : StreamKind) (sse : SseMeta) (finishReasons : List String)
    (usage : Usage) : StreamPayload where
  id := sse.id
  object := kind.object
  created := sse.created
  model := sse.model
  choices := finishReasons.mapIdx fun i finishReason =>
    { index := i, body := kind.body none, finishReason := some finishReason }
  usage := some usage

end StreamKind

/-! ## The loop over the events -/

def internalError (message : String) : SseData := .error message "internal_error"

def unfinishedMessage : String := "engine loop ended before all candidates completed"

/-- The arguments of a stream. -/
structure StreamSetting (τ : Type) where
  kind : StreamKind
  sse : SseMeta
  promptTokens : Nat
  tokenizer : τ
  k : Nat

structure MultiLocals where
  failure : Option String := none
  terminated : Bool := false
  remaining : Nat
  finishReasons : List (Option String)
  completionTokens : List Nat

def MultiLocals.new (n : Nat) : MultiLocals where
  remaining := n
  finishReasons := List.replicate n none
  completionTokens := List.replicate n 0

/-- The entries of a candidate that has succeeded. -/
def MultiLocals.complete (l : MultiLocals) (i : Nat) (completed : CompletedRequest) : MultiLocals :=
  { l with
    finishReasons := l.finishReasons.set i (some (completed.finishReason.getD .stop).asStr)
    completionTokens := l.completionTokens.set i completed.outputTokens.length }

/-- What follows the loop. -/
def MultiLocals.closing (l : MultiLocals) : List SseData :=
  (if !l.terminated && l.failure.isNone then [internalError unfinishedMessage] else []) ++
    (l.failure.map internalError).toList ++ [.done]

namespace StreamSetting

variable {τ δ : Type} [TokenizerTrait τ δ]

def chunkData (x : StreamSetting τ) (n i : Nat) (chunk : String)
    (logprobs : Option TokenLogprobs) : SseData :=
  .payload (x.kind.multiChunkPayload x.sse n i chunk
    (logprobs.map fun lp => logprobsOutput [lp] x.tokenizer x.k))

def finalPayload (x : StreamSetting τ) (l : MultiLocals) : StreamPayload :=
  let completionTotal := l.completionTokens.sum
  let usage : Usage :=
    { promptTokens := x.promptTokens
      completionTokens := completionTotal
      totalTokens := x.promptTokens + completionTotal }
  let reasons := l.finishReasons.map fun r => r.getD "stop"
  x.kind.multiFinalPayload x.sse reasons usage

/-- One turn of the loop: whether it goes on, its locals, and what it yields. -/
def turn (x : StreamSetting τ) (n : Nat) (l : MultiLocals) (i : Nat) :
    RequestEvent → Bool × MultiLocals × List SseData
  | .chunk chunk logprobs => (true, l, [x.chunkData n i chunk logprobs])
  | .done completed =>
      let l := { l with remaining := l.remaining - 1 }
      if completed.success then
        let l := l.complete i completed
        if l.remaining = 0 then
          (false, { l with terminated := true }, [.payload (x.finalPayload l)])
        else (true, l, [])
      else (false, { l with failure := completed.error }, [])

end StreamSetting

/-- The stream with its forwarding tasks, and what it has yielded. -/
structure MultiStream where
  fanIn : FanIn RequestEvent
  locals : MultiLocals
  out : List SseData := []

/-- What a candidate's channel brings: its chunks, and its report unless it is closed early. -/
structure Candidate where
  chunks : List (String × Option TokenLogprobs)
  report : Option CompletedRequest

def Candidate.events (c : Candidate) : List RequestEvent :=
  chunkEvents c.chunks ++ c.report.toList.map .done

namespace MultiStream

variable {τ δ : Type} [TokenizerTrait τ δ]

def start (candidates : List Candidate) : MultiStream where
  fanIn := .start (candidates.map Candidate.events)
  locals := .new candidates.length

def receive (s : MultiStream) (x : StreamSetting τ) (n i : Nat) (event : RequestEvent)
    (rest : List (Nat × RequestEvent)) : MultiStream :=
  let (goesOn, locals, data) := x.turn n s.locals i event
  if goesOn then { fanIn := s.fanIn.take rest, locals := locals, out := s.out ++ data }
  else { fanIn := s.fanIn.drop, locals := locals, out := s.out ++ data ++ locals.closing }

/-- A candidate, a forwarding task or the loop does something. -/
inductive Step (x : StreamSetting τ) (n : Nat) : MultiStream → MultiStream → Prop
  | move {s : MultiStream} {fanIn : FanIn RequestEvent} (h : s.fanIn.Move fanIn) :
      Step x n s { s with fanIn := fanIn }
  | receive {s : MultiStream} {i : Nat} {event : RequestEvent} {rest : List (Nat × RequestEvent)}
      (hreceiving : s.fanIn.receiving = true) (h : s.fanIn.merged = (i, event) :: rest) :
      Step x n s (s.receive x n i event rest)
  | exhausted {s : MultiStream} (hreceiving : s.fanIn.receiving = true) (h : s.fanIn.Exhausted) :
      Step x n s { s with fanIn := s.fanIn.drop, out := s.out ++ s.locals.closing }

end MultiStream

end PagedServing
