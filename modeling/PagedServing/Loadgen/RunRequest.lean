import PagedServing.Library.JsonValue
import PagedServing.Loadgen.Sse

/-! # One request of the load generator

`run_request` of `src/bin/loadgen.rs`: the payloads of the stream are folded into a record, up to
the end of the stream, `[DONE]` or the first failure. The times in a record are left out; of the
arrival times of the chunks, their number is kept.
-/

namespace PagedServing

open Framing

/-! ## Records -/

structure RequestRecord where
  requestId : Nat
  measuredIndex : Option Nat
  ok : Bool
  errorClass : Option String
  errorDetail : Option String
  chunks : UInt32
  completionTokens : Option UInt32
  tokensSource : Option String
  finishReason : Option String
  promptTokensMeta : Option UInt32
  deriving DecidableEq

def failureRecord (requestId : Nat) (measuredIndex : Option Nat) (errorClass : String)
    (errorDetail : Option String) (promptTokensMeta : Option UInt32) : RequestRecord where
  requestId := requestId
  measuredIndex := measuredIndex
  ok := false
  errorClass := some errorClass
  errorDetail := errorDetail
  chunks := 0
  completionTokens := none
  tokensSource := none
  finishReason := none
  promptTokensMeta := promptTokensMeta

def Utf8Error.display (e : Utf8Error) : String :=
  match e.errorLen with
  | some len => s!"invalid utf-8 sequence of {len} bytes from index {e.validUpTo}"
  | none => s!"incomplete utf-8 byte sequence from index {e.validUpTo}"

/-- JSON texts of values, and the values of JSON texts. -/
structure JsonCodec where
  render : JsonValue → String
  parse : String → Except String JsonValue

/-! ## Payloads -/

structure StreamLocals where
  outputText : String := ""
  chunkTimes : Nat := 0
  completionTokens : Option UInt32 := none
  finishReason : Option String := none
  streamFailure : Option (String × String) := none
  sawDone : Bool := false

namespace StreamLocals

def fail (l : StreamLocals) (errorClass message : String) : StreamLocals :=
  { l with streamFailure := some (errorClass, message) }

/-- The last frame has the usage. -/
def takeUsage (l : StreamLocals) (v : JsonValue) : StreamLocals :=
  match ((v.get? "usage").bind (·.get? "completion_tokens")).bind (·.asU64?) with
  | some ct => if ct.toNat < 2 ^ 32 then { l with completionTokens := some ct.toUInt32 } else l
  | none => l

def takeFinishReason (l : StreamLocals) (choice : JsonValue) : StreamLocals :=
  match (choice.get? "finish_reason").bind (·.asStr?) with
  | some fr => if fr.isEmpty then l else { l with finishReason := some fr }
  | none => l

def takeText (l : StreamLocals) (choice : JsonValue) : StreamLocals :=
  let text := ((choice.get? "text").bind (·.asStr?)).getD ""
  if text.isEmpty then l
  else { l with chunkTimes := l.chunkTimes + 1, outputText := l.outputText ++ text }

def takeChoice (l : StreamLocals) (v : JsonValue) : StreamLocals :=
  match (v.get? "choices").bind (·.item? 0) with
  | some choice => (l.takeFinishReason choice).takeText choice
  | none => l

def errorMessage (err : JsonValue) : String :=
  ((err.get? "message").bind (·.asStr?)).getD "unknown stream error"

/-- One payload: whether the reading ends, and the locals. -/
def takePayload (codec : JsonCodec) (l : StreamLocals) (payload : String) : Bool × StreamLocals :=
  if payload.isEmpty then (false, l)
  else if payload = "[DONE]" then (true, { l with sawDone := true })
  else
    match codec.parse payload with
    | .error e => (true, l.fail "protocol_error" ("invalid JSON in SSE data: " ++ e))
    | .ok v =>
        match v.get? "error" with
        | some err => (true, l.fail "stream_error" (errorMessage err))
        | none => (false, (l.takeUsage v).takeChoice v)

/-! ## The stream -/

/-- The inner loop, for at most `n` turns. -/
def takePayloads (codec : JsonCodec) : Nat → List UInt8 → StreamLocals →
    Bool × StreamLocals × List UInt8
  | 0, buf, l => (false, l, buf)
  | n + 1, buf, l =>
      match takeSseData buf with
      | (.error e, buf) =>
          (true, l.fail "protocol_error" ("SSE event is not valid UTF-8: " ++ e.display), buf)
      | (.ok none, buf) => (false, l, buf)
      | (.ok (some payload), buf) =>
          match l.takePayload codec payload with
          | (true, l) => (true, l, buf)
          | (false, l) => takePayloads codec n buf l

/-- The outer loop over what the network brings. -/
def readStream (codec : JsonCodec) : List (Except String (List UInt8)) → List UInt8 →
    StreamLocals → StreamLocals
  | [], _, l => l
  | .error e :: _, _, l => l.fail "stream_error" ("stream read error: " ++ e)
  | .ok bytes :: rest, buf, l =>
      let buf := buf ++ bytes
      match takePayloads codec buf.length buf l with
      | (true, l, _) => l
      | (false, l, buf) => readStream codec rest buf l

/-- Whether the request went well; else the class and the detail of its error. -/
def outcome (l : StreamLocals) : Bool × Option String × Option String :=
  match l.streamFailure with
  | some (errorClass, message) => (false, some errorClass, some message)
  | none => if !l.sawDone then (false, some "no_done", none) else (true, none, none)

/-- The number of tokens and where it is from. A tokenizer counts the tokens of a text. -/
def tokens (l : StreamLocals) (outputTokenizer : Option (String → Option Nat)) :
    Option UInt32 × Option String :=
  match l.completionTokens with
  | some ct => (some ct, some "usage")
  | none =>
      match outputTokenizer.bind (· l.outputText) with
      | some count =>
          if count < 2 ^ 32 then (some (UInt32.ofNat count), some "tokenizer_text")
          else (none, none)
      | none => (none, none)

end StreamLocals

/-! ## The request -/

/-- What comes of sending a request. -/
inductive HttpResult where
  | failed (isTimeout : Bool) (message : String)
  | response (status : Nat) (display : String) (body : List (Except String (List UInt8)))

def statusClass (status : Nat) : String :=
  if status = 429 then "http_429"
  else if 400 ≤ status ∧ status ≤ 499 then "http_4xx"
  else "http_5xx"

/-- What a request is made from. -/
structure RequestArgs where
  codec : JsonCodec
  requestId : Nat
  measuredIndex : Option Nat
  promptTokensMeta : Option UInt32
  outputTokenizer : Option (String → Option Nat)

def RequestArgs.failure (a : RequestArgs) (errorClass detail : String) : RequestRecord :=
  failureRecord a.requestId a.measuredIndex errorClass (some detail) a.promptTokensMeta

def RequestArgs.streamRecord (a : RequestArgs) (l : StreamLocals) : RequestRecord :=
  let (ok, errorClass, errorDetail) := l.outcome
  let (tokens, tokensSource) := l.tokens a.outputTokenizer
  { requestId := a.requestId
    measuredIndex := a.measuredIndex
    ok := ok
    errorClass := errorClass
    errorDetail := errorDetail
    chunks := UInt32.ofNat l.chunkTimes
    completionTokens := tokens
    tokensSource := tokensSource
    finishReason := l.finishReason
    promptTokensMeta := a.promptTokensMeta }

/-- `run_request`, whose loop alone is `runRequest`. -/
def RequestArgs.record (a : RequestArgs) : HttpResult → RequestRecord
  | .failed isTimeout message => a.failure (if isTimeout then "timeout" else "connection") message
  | .response status display body =>
      if 200 ≤ status ∧ status ≤ 299 then
        a.streamRecord (StreamLocals.readStream a.codec body [] {})
      else a.failure (statusClass status) ("HTTP " ++ display)

/-! ## The loop folds the payloads -/

namespace StreamLocals

/-- What is no JSON or tells of an error. -/
def badPayload (codec : JsonCodec) (payload : String) : Bool :=
  match codec.parse payload with
  | .error _ => true
  | .ok v => (v.get? "error").isSome

/-- The payloads at which the loop stops. -/
abbrev fatal (codec : JsonCodec) : String → Bool := requestFatal (badPayload codec)

def takeOutput (codec : JsonCodec) (l : StreamLocals) : Except Utf8Error String → StreamLocals
  | .error e => l.fail "protocol_error" ("SSE event is not valid UTF-8: " ++ e.display)
  | .ok payload => (l.takePayload codec payload).2

variable (codec : JsonCodec) (l : StreamLocals)

theorem takePayload_fst (payload : String) :
    (l.takePayload codec payload).1 = fatal codec payload := by
  rw [takePayload, fatal, requestFatal, badPayload]
  by_cases hempty : payload = ""
  · simp [hempty]
  · by_cases hdone : payload = "[DONE]"
    · simp [hdone]
    · cases hparse : codec.parse payload with
      | error e => simp [hempty, hdone]
      | ok v => cases herror : v.get? "error" <;> simp [hempty, hdone, herror]

theorem takePayloads_eq (n : Nat) (buf : List UInt8) :
    takePayloads codec n buf l =
      ((takeAll (fatal codec) n buf).1.any (endsReading (fatal codec)),
        (takeAll (fatal codec) n buf).1.foldl (takeOutput codec) l,
        (takeAll (fatal codec) n buf).2) := by
  induction n generalizing buf l with
  | zero => rfl
  | succ n ih =>
    rw [takePayloads, takeAll]
    cases htake : takeSseData buf with
    | mk result rest =>
      cases result with
      | error e => rfl
      | ok payload =>
        cases payload with
        | none => rfl
        | some payload =>
          have hfst := l.takePayload_fst codec payload
          cases hpayload : l.takePayload codec payload with
          | mk stops l' =>
            rw [hpayload] at hfst
            subst hfst
            have hsnd : takeOutput codec l (.ok payload) = l' := congrArg Prod.snd hpayload
            dsimp only
            cases hfatal : fatal codec payload with
            | true => simp [hpayload, endsReading, hfatal, hsnd]
            | false => simp [hpayload, endsReading, hfatal, hsnd, ih]

variable {codec}

/-- Over chunks, the outer loop does to the locals what the payloads do that are read of them. -/
theorem readStream_chunks (chunks : List (List UInt8)) (ending : List (Except String (List UInt8)))
    {r : SseReader} (h : r.outputs.any (endsReading (fatal codec)) = false) :
    readStream codec (chunks.map .ok ++ ending) r.buffer (r.outputs.foldl (takeOutput codec) {}) =
      let r' := (runRequest (fatal codec) chunks r).1
      if r'.outputs.any (endsReading (fatal codec)) then r'.outputs.foldl (takeOutput codec) {}
      else readStream codec ending r'.buffer (r'.outputs.foldl (takeOutput codec) {}) := by
  induction chunks generalizing r with
  | nil => simp [runRequest, h]
  | cons chunk rest ih =>
    obtain ⟨taken, htaken⟩ : ∃ taken, takeAll (fatal codec) (r.buffer ++ chunk).length
        (r.buffer ++ chunk) = taken := ⟨_, rfl⟩
    have hreceive : receive (fatal codec) r chunk = ⟨r.outputs ++ taken.1, taken.2⟩ := by
      simp only [receive, h, Bool.false_eq_true, if_false, htaken]
    have hany : (r.outputs ++ taken.1).any (endsReading (fatal codec)) =
        taken.1.any (endsReading (fatal codec)) := by
      rw [List.any_append, h, Bool.false_or]
    rw [List.map_cons, List.cons_append, readStream]
    simp only [takePayloads_eq, htaken, runRequest, hreceive, ← List.foldl_append, hany]
    cases hstop : taken.1.any (endsReading (fatal codec)) with
    | true => simp only [if_true, hany, hstop]
    | false => exact @ih ⟨r.outputs ++ taken.1, taken.2⟩ (hany.trans hstop)

theorem runRequest_outputs (fatal : String → Bool) (chunks : List (List UInt8)) :
    (runRequest fatal chunks {}).1.outputs =
      (sseFraming.drain readEvent (endsReading fatal) chunks.flatten).1 := by
  have hloop := sseFraming.foldl_push_eq_readChunks readEvent (endsReading fatal) {} chunks
  rw [foldl_push Reader.settled_new, push_new, ← runRequest_eq_readChunks] at hloop
  exact (congrArg Reader.outputs hloop).symm

/-- What is read of `input`, however it is cut. -/
def outputsOf (codec : JsonCodec) (input : List UInt8) : List (Except Utf8Error String) :=
  (sseFraming.drain readEvent (endsReading (fatal codec)) input).1

/-- The locals after a connection that has brought `input` and may break then. -/
def afterInput (codec : JsonCodec) (input : List UInt8) (broken : Option String) : StreamLocals :=
  let l := (outputsOf codec input).foldl (takeOutput codec) {}
  match broken with
  | none => l
  | some e =>
      if (outputsOf codec input).any (endsReading (fatal codec)) then l
      else l.fail "stream_error" ("stream read error: " ++ e)

theorem readStream_eq_afterInput (chunks : List (List UInt8)) (broken : Option String) :
    readStream codec (chunks.map .ok ++ broken.toList.map .error) [] {} =
      afterInput codec chunks.flatten broken := by
  have hread := @readStream_chunks codec chunks (broken.toList.map .error) {} rfl
  refine Eq.trans hread ?_
  simp only [runRequest_outputs]
  cases broken with
  | none => exact ite_self _
  | some e => rfl

end StreamLocals

end PagedServing
