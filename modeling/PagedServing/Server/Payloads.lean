import PagedServing.Library.JsonValue
import PagedServing.Server.StreamMulti

/-! # Stream payloads as JSON

`src/server.rs`: the values that `StreamKind` and the handlers send. The entries of an object
stand in the order of their keys, as `serde_json::Map` keeps them.
-/

namespace PagedServing

open JsonValue

def natJson (n : Nat) : JsonValue := .uint (UInt64.ofNat n)

def JsonNumber.toJson : JsonNumber → JsonValue
  | .null => .null
  | .negZero => .negZero
  | .number value => .number value

def LogprobsOutput.toJson (lp : LogprobsOutput) : JsonValue :=
  .object
    [("text_offset", .array (lp.textOffset.map natJson)),
      ("token_logprobs", .array (lp.tokenLogprobs.map fun p => (jsonNumber p).toJson)),
      ("tokens", .array (lp.tokens.map .str)),
      ("top_logprobs", .array (lp.topLogprobs.map fun top =>
        .object (top.map fun entry => (entry.1, entry.2.toJson))))]

/-- The entries of a choice; `logprobs` is there only where it is known. -/
def StreamChoice.toJson (choice : StreamChoice) : JsonValue :=
  let finishReason := ("finish_reason", (choice.finishReason.map JsonValue.str).getD .null)
  let index := ("index", natJson choice.index)
  let logprobs := (choice.logprobs.map fun lp => ("logprobs", lp.toJson)).toList
  match choice.body with
  | .text text => .object (finishReason :: index :: (logprobs ++ [("text", .str text)]))
  | .delta content =>
      let said := .object (content.map fun text => ("content", JsonValue.str text)).toList
      .object (("delta", said) :: finishReason :: index :: logprobs)

def Usage.toJson (usage : Usage) : JsonValue :=
  .object
    [("completion_tokens", natJson usage.completionTokens),
      ("prompt_tokens", natJson usage.promptTokens),
      ("total_tokens", natJson usage.totalTokens)]

def StreamPayload.toJson (payload : StreamPayload) : JsonValue :=
  .object
    ([("choices", .array (payload.choices.map (·.toJson))), ("created", natJson payload.created),
      ("id", .str payload.id), ("model", .str payload.model), ("object", .str payload.object)] ++
      (payload.usage.map fun usage => ("usage", usage.toJson)).toList)

def errorJson (message type : String) : JsonValue :=
  .object [("error", .object [("message", .str message), ("type", .str type)])]

/-- The value that an event is the text of, unless it is the last one. -/
def SseData.toJson? : SseData → Option JsonValue
  | .payload p => some p.toJson
  | .error message type => some (errorJson message type)
  | .done => none

/-- The `data` of an event. -/
def SseData.text (render : JsonValue → String) (data : SseData) : String :=
  (data.toJson?.map render).getD "[DONE]"

/-! ## Lookups -/

namespace StreamPayload

variable (payload : StreamPayload)

theorem get?_error : payload.toJson.get? "error" = none := by
  cases payload with
  | mk id object created model choices usage => cases usage <;> rfl

theorem get?_usage : payload.toJson.get? "usage" = payload.usage.map (·.toJson) := by
  cases payload with
  | mk id object created model choices usage => cases usage <;> rfl

theorem get?_choices :
    payload.toJson.get? "choices" = some (.array (payload.choices.map (·.toJson))) := rfl

end StreamPayload

namespace StreamChoice

variable (choice : StreamChoice)

theorem get?_finishReason : choice.toJson.get? "finish_reason" =
    some ((choice.finishReason.map JsonValue.str).getD .null) := by
  cases choice with
  | mk index body finishReason logprobs => cases body <;> rfl

theorem get?_text {text : String} (h : choice.body = .text text) :
    choice.toJson.get? "text" = some (.str text) := by
  cases choice with
  | mk index body finishReason logprobs =>
    cases h
    cases logprobs <;> rfl

end StreamChoice

end PagedServing
