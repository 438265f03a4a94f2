import PagedServing.Engine.Outcomes
import PagedServing.Loadgen.Encoding
import PagedServing.Loadgen.RunRequest
import PagedServing.Server.Payloads
import PagedServing.Server.Service

/-! # From a stream of the server to a record of the load generator

What `stream_response` of `src/server.rs` sends is cut by the network, mixed with comments that
keep the connection alive, and read by `run_request` of `src/bin/loadgen.rs`. The record tells
the result of the request; a connection that breaks is never taken for a success.
-/

namespace PagedServing

open Framing

/-! ## The wire -/

/-- The bytes of an event with this data, and of a comment in between. -/
structure SseWire where
  event : String → List UInt8
  keepAlive : List UInt8

structure SseWire.Lawful (w : SseWire) : Prop where
  event : ∀ text : String, '\n' ∉ text.toList → '\r' ∉ text.toList →
    w.event text = utf8Bytes ("data: ".toList ++ text.toList) ++ lfDelimiter
  keepAlive : w.keepAlive = utf8Bytes [':'] ++ lfDelimiter

/-- An event with data, or a comment. -/
def SseWire.bytes (w : SseWire) (frame : Option String) : List UInt8 :=
  (frame.map w.event).getD w.keepAlive

/-- What the load generator finds of a frame. -/
def wireEvent : Option String → List UInt8 × List UInt8
  | some text => (utf8Bytes ("data: ".toList ++ text.toList), lfDelimiter)
  | none => (utf8Bytes [':'], lfDelimiter)

section Wire

variable {w : SseWire} {frames : List (Option String)} {frame : Option String}

theorem SseWire.Lawful.bytes_eq (hw : w.Lawful) (h : ∀ text ∈ frame, OneLine text.toList) :
    w.bytes frame = sseFraming.bytes (wireEvent frame) := by
  cases frame with
  | none => exact hw.keepAlive
  | some text => exact hw.event text (h text rfl).no_lf (h text rfl).no_cr

theorem next_wireEvent (h : ∀ text ∈ frame, OneLine text.toList) :
    sseFraming.next (sseFraming.bytes (wireEvent frame)) = some (wireEvent frame, []) := by
  cases frame with
  | none => exact next_lineFeeds (lineFeed_notMem_utf8Bytes (by decide))
  | some text =>
      refine next_lineFeeds (lineFeed_notMem_utf8Bytes fun hmem => ?_)
      exact (List.mem_append.1 hmem).elim (by decide) (h text rfl).no_lf

theorem readEvent_wireEvent (h : ∀ text ∈ frame, OneLine text.toList) :
    readEvent (wireEvent frame) = .ok (frame.getD "") := by
  cases frame with
  | none => exact (readEvent_utf8Bytes _ _).trans (congrArg _ (dataOf_comment (by decide)))
  | some text =>
      refine (readEvent_utf8Bytes _ _).trans (congrArg _ ?_)
      rw [dataOf_data (h text rfl), String.ofList_toList, Option.getD_some]

theorem outputsOf_frames (codec : JsonCodec) (hw : w.Lawful)
    (h : ∀ frame ∈ frames, ∀ text ∈ frame, OneLine text.toList) :
    StreamLocals.outputsOf codec (frames.flatMap w.bytes) =
      upTo (endsReading (StreamLocals.fatal codec))
        (frames.map fun frame => .ok (frame.getD "")) := by
  have hbytes : frames.flatMap w.bytes = (frames.map wireEvent).flatMap sseFraming.bytes := by
    rw [List.flatMap_map]
    exact List.flatMap_congr fun frame hframe => hw.bytes_eq (h frame hframe)
  have hread : (frames.map wireEvent).map readEvent =
      frames.map fun frame => .ok (frame.getD "") := by
    rw [List.map_map]
    exact List.map_congr_left fun frame hframe => readEvent_wireEvent (h frame hframe)
  rw [StreamLocals.outputsOf, hbytes, drain_frames, hread]
  intro event hevent
  obtain ⟨frame, hframe, rfl⟩ := List.mem_map.1 hevent
  exact next_wireEvent (h frame hframe)

end Wire

/-! ## Texts -/

/-- A value that is written on one line and read back. -/
structure JsonCodec.Carries (codec : JsonCodec) (v : JsonValue) : Prop where
  parse_render : codec.parse (codec.render v) = .ok v
  brace : (codec.render v).toList.head? = some '{'
  no_lf : '\n' ∉ (codec.render v).toList
  no_cr : '\r' ∉ (codec.render v).toList

theorem JsonCodec.Carries.oneLine {codec : JsonCodec} {v : JsonValue} (h : codec.Carries v) :
    OneLine (codec.render v).toList := by
  refine ⟨h.no_lf, h.no_cr, fun c hc => ?_⟩
  rw [h.brace] at hc
  obtain rfl := Option.some.inj hc
  decide

/-- All values that are sent are carried. -/
def JsonCodec.CarriesAll (codec : JsonCodec) (sent : List SseData) : Prop :=
  ∀ data ∈ sent, ∀ v ∈ data.toJson?, codec.Carries v

theorem oneLine_done : OneLine "[DONE]".toList := by
  refine ⟨by decide, by decide, fun c hc => ?_⟩
  obtain rfl : '[' = c := Option.some.inj hc
  decide

theorem oneLine_text {codec : JsonCodec} {data : SseData}
    (h : ∀ v ∈ data.toJson?, codec.Carries v) :
    OneLine (data.text codec.render).toList := by
  cases hjson : data.toJson? with
  | none =>
      rw [SseData.text, hjson]
      exact oneLine_done
  | some v =>
      rw [SseData.text, hjson]
      exact (h v hjson).oneLine

namespace StreamLocals

variable {codec : JsonCodec} (l : StreamLocals)

theorem takePayload_render {v : JsonValue} (h : codec.Carries v) :
    l.takePayload codec (codec.render v) =
      match v.get? "error" with
      | some err => (true, l.fail "stream_error" (errorMessage err))
      | none => (false, (l.takeUsage v).takeChoice v) := by
  have hbrace := h.brace
  have hne : (codec.render v).isEmpty = false := by
    rw [Bool.eq_false_iff]
    intro heq
    rw [String.isEmpty_iff.1 heq] at hbrace
    cases hbrace
  have hdone : codec.render v ≠ "[DONE]" := by
    intro heq
    rw [heq] at hbrace
    exact absurd hbrace (by decide)
  cases herror : v.get? "error" <;>
    simp only [takePayload, hne, Bool.false_eq_true, if_false, hdone, h.parse_render, herror]

theorem takePayload_error {message type : String} (h : codec.Carries (errorJson message type)) :
    l.takePayload codec ((SseData.error message type).text codec.render) =
      (true, l.fail "stream_error" message) :=
  l.takePayload_render h

theorem takePayload_payload {payload : StreamPayload} (h : codec.Carries payload.toJson) :
    l.takePayload codec ((SseData.payload payload).text codec.render) =
      (false, (l.takeUsage payload.toJson).takeChoice payload.toJson) := by
  refine (l.takePayload_render h).trans ?_
  rw [payload.get?_error]

/-! ## Folds -/

/-- The locals after the payloads of these frames, up to the first that ends the reading. -/
def afterFrames (codec : JsonCodec) (l : StreamLocals) (frames : List (Option String)) :
    StreamLocals :=
  (upTo (endsReading (fatal codec)) (frames.map fun frame => .ok (frame.getD ""))).foldl
    (takeOutput codec) l

theorem afterFrames_cons_some (text : String) (frames : List (Option String)) :
    afterFrames codec l (some text :: frames) =
      if (l.takePayload codec text).1 then (l.takePayload codec text).2
      else afterFrames codec (l.takePayload codec text).2 frames := by
  rw [takePayload_fst, afterFrames, List.map_cons, upTo]
  split
  next h => exact (if_pos (c := fatal codec text = true) h).symm
  next h => exact (if_neg (c := fatal codec text = true) h).symm

/-- A piece of text is shown. -/
def addText (l : StreamLocals) (text : String) : StreamLocals :=
  if text.isEmpty then l
  else { l with chunkTimes := l.chunkTimes + 1, outputText := l.outputText ++ text }

/-- Comments leave no trace. -/
theorem afterFrames_reduceOption (frames : List (Option String)) :
    afterFrames codec l frames = afterFrames codec l (frames.reduceOption.map some) := by
  induction frames generalizing l with
  | nil => rfl
  | cons frame rest ih =>
    cases frame with
    | none => exact ih l
    | some text =>
        simp only [List.reduceOption_cons_of_some, List.map_cons, afterFrames_cons_some, ih]

theorem takeUsage_toJson (payload : StreamPayload) :
    l.takeUsage payload.toJson =
      match payload.usage with
      | some usage =>
          if (UInt64.ofNat usage.completionTokens).toNat < 2 ^ 32 then
            { l with completionTokens := some (UInt64.ofNat usage.completionTokens).toUInt32 }
          else l
      | none => l := by
  rw [takeUsage, payload.get?_usage]
  cases payload.usage <;> rfl

theorem takeChoice_toJson {payload : StreamPayload} {choice : StreamChoice} {text : String}
    (hchoices : payload.choices = [choice]) (hbody : choice.body = .text text) :
    l.takeChoice payload.toJson =
      match choice.finishReason with
      | some fr => (if fr.isEmpty then l else { l with finishReason := some fr }).addText text
      | none => l.addText text := by
  have hchoice : (payload.toJson.get? "choices").bind (·.item? 0) = some choice.toJson := by
    rw [payload.get?_choices, hchoices]
    rfl
  rw [takeChoice, hchoice]
  dsimp only
  rw [takeFinishReason, choice.get?_finishReason]
  have htext (l : StreamLocals) : l.takeText choice.toJson = l.addText text := by
    rw [takeText, choice.get?_text hbody]
    rfl
  rw [htext]
  cases choice.finishReason <;> rfl

section Completion

variable {τ δ : Type} [TokenizerTrait τ δ] {x : StreamSetting τ}

theorem takePayload_singleChunk (hkind : x.kind = .completion)
    (chunk : String × Option TokenLogprobs)
    (h : ∀ v ∈ (x.singleChunk chunk).toJson?, codec.Carries v) :
    l.takePayload codec ((x.singleChunk chunk).text codec.render) = (false, l.addText chunk.1) := by
  refine (l.takePayload_payload (h _ rfl)).trans (congrArg (Prod.mk false) ?_)
  have hbody : x.kind.body (some chunk.1) = .text chunk.1 := by rw [hkind]; rfl
  rw [takeUsage_toJson]
  exact @takeChoice_toJson l _ ⟨0, _, none, _⟩ _ rfl hbody

theorem takePayload_singleFinal (hkind : x.kind = .completion) (completed : CompletedRequest)
    (hlt : completed.outputTokens.length < 2 ^ 32)
    (h : codec.Carries (x.singleFinal completed).toJson) :
    l.takePayload codec ((SseData.payload (x.singleFinal completed)).text codec.render) =
      (false, { l with
        completionTokens := some (UInt32.ofNat completed.outputTokens.length)
        finishReason := some (completed.finishReason.getD .stop).asStr }) := by
  refine (l.takePayload_payload h).trans (congrArg (Prod.mk false) ?_)
  have hcount : (UInt64.ofNat completed.outputTokens.length).toNat =
      completed.outputTokens.length := by
    rw [UInt64.toNat_ofNat']
    exact Nat.mod_eq_of_lt (by omega)
  have husage : (x.singleFinal completed).usage = some (x.singleUsage completed) := rfl
  rw [takeUsage_toJson, husage]
  dsimp only [StreamSetting.singleUsage]
  rw [hcount, if_pos hlt]
  have hbody : x.kind.body none = .text "" := by rw [hkind]; rfl
  refine (@takeChoice_toJson _ _ ⟨0, _, some _, none⟩ _ rfl hbody).trans ?_
  have hsame : (UInt64.ofNat completed.outputTokens.length).toUInt32 =
      UInt32.ofNat completed.outputTokens.length :=
    UInt32.toNat_inj.1 (by rw [UInt64.toNat_toUInt32, hcount, UInt32.toNat_ofNat'])
  rw [hsame]
  cases completed.finishReason.getD .stop <;> rfl

theorem afterFrames_chunks (hkind : x.kind = .completion)
    (chunks : List (String × Option TokenLogprobs)) (rest : List SseData)
    (h : codec.CarriesAll (chunks.map x.singleChunk)) :
    afterFrames codec l
        ((chunks.map x.singleChunk ++ rest).map fun data => some (data.text codec.render)) =
      afterFrames codec ((chunks.map Prod.fst).foldl addText l)
        (rest.map fun data => some (data.text codec.render)) := by
  induction chunks generalizing l with
  | nil => rfl
  | cons chunk chunks ih =>
    obtain ⟨hchunk, hrest⟩ := List.forall_mem_cons.1 h
    rw [List.map_cons, List.cons_append, List.map_cons, afterFrames_cons_some,
      takePayload_singleChunk l hkind chunk hchunk, if_neg Bool.false_ne_true, ih _ hrest]
    rfl

end Completion

/-- Text moves nothing but the text and its count. -/
theorem foldl_addText (texts : List String) (l : StreamLocals) :
    texts.foldl addText l =
      { l with
        chunkTimes := l.chunkTimes + texts.countP (!·.isEmpty)
        outputText := l.outputText ++ String.join texts } := by
  induction texts generalizing l with
  | nil => simp [String.join]
  | cons text rest ih =>
    rw [List.foldl_cons, ih, addText, String.join_cons]
    split
    next h => simp [String.isEmpty_iff.1 h]
    next h => simp [h, String.append_assoc, Nat.add_assoc, Nat.add_comm 1]

/-! ## Broken connections -/

theorem sawDone_takeChoice (v : JsonValue) : (l.takeChoice v).sawDone = l.sawDone := by
  rw [takeChoice]
  split
  next choice _ =>
    have hreason : (l.takeFinishReason choice).sawDone = l.sawDone := by
      rw [takeFinishReason]
      split
      next => split <;> rfl
      next => rfl
    rw [takeText]
    split <;> exact hreason
  next => rfl

theorem sawDone_takeUsage (v : JsonValue) : (l.takeUsage v).sawDone = l.sawDone := by
  rw [takeUsage]
  split
  next => split <;> rfl
  next => rfl

theorem sawDone_takePayload (payload : String)
    (h : (l.takePayload codec payload).2.sawDone = true) :
    l.sawDone = true ∨ payload = "[DONE]" := by
  rw [takePayload] at h
  split at h
  next => exact .inl h
  next =>
    split at h
    next hdone => exact .inr hdone
    next =>
      refine .inl ?_
      split at h
      next => exact h
      next v _ =>
        split at h
        next => exact h
        next => rwa [sawDone_takeChoice, sawDone_takeUsage] at h

theorem sawDone_of_outcome (h : l.outcome.1 = true) : l.sawDone = true := by
  rw [outcome] at h
  split at h
  next => cases h
  next =>
    split at h
    next => cases h
    next hdone => simpa using hdone

theorem done_mem_of_sawDone {outputs : List (Except Utf8Error String)} {l : StreamLocals}
    (h : (outputs.foldl (takeOutput codec) l).sawDone = true) :
    l.sawDone = true ∨ .ok "[DONE]" ∈ outputs := by
  induction outputs generalizing l with
  | nil => exact .inl h
  | cons output rest ih =>
    rcases ih h with hdone | hmem
    · cases output with
      | error e => exact .inl hdone
      | ok payload =>
          refine (l.sawDone_takePayload payload hdone).imp_right fun heq => ?_
          rw [heq]
          exact List.mem_cons_self
    · exact .inr (List.mem_cons_of_mem _ hmem)

/-- A connection that brings everything, or that ends in a success, brings what it should. -/
theorem afterInput_eq {w : SseWire} (hw : w.Lawful) {frames : List (Option String)}
    (hlines : ∀ frame ∈ frames, ∀ text ∈ frame, OneLine text.toList)
    (hdone : some "[DONE]" ∈ frames) {input : List UInt8} (hcut : input <+: frames.flatMap w.bytes)
    (broken : Option String)
    (h : input = frames.flatMap w.bytes ∨ (afterInput codec input broken).outcome.1 = true) :
    afterInput codec input broken = afterFrames codec {} frames := by
  have hends : endsReading (fatal codec) (.ok "[DONE]") = true := by
    simp [endsReading, requestFatal]
  have hwhole := outputsOf_frames codec hw hlines
  have hany : (outputsOf codec (frames.flatMap w.bytes)).any
      (endsReading (fatal codec)) = true := by
    rw [hwhole, any_upTo, List.any_eq_true]
    exact ⟨_, List.mem_map_of_mem hdone, hends⟩
  have hfold : (outputsOf codec (frames.flatMap w.bytes)).foldl (takeOutput codec) {} =
      afterFrames codec {} frames := by rw [hwhole]; rfl
  have hall : outputsOf codec input = outputsOf codec (frames.flatMap w.bytes) →
      afterInput codec input broken = afterFrames codec {} frames := by
    intro hsame
    rw [← hfold, ← hsame]
    cases broken with
    | none => rfl
    | some e => exact if_pos (hsame ▸ hany)
  rcases h with rfl | hok
  · exact hall rfl
  · have hread : (outputsOf codec input).foldl (takeOutput codec) {} =
        afterInput codec input broken := by
      cases broken with
      | none => rfl
      | some e =>
          by_cases hstops : (outputsOf codec input).any (endsReading (fatal codec)) = true
          · exact (if_pos hstops).symm
          · have hbroken : afterInput codec input (some e) = fail _ _ _ := if_neg hstops
            rw [hbroken] at hok
            cases hok
    have hsaw := sawDone_of_outcome _ hok
    rw [← hread] at hsaw
    have hmem := (done_mem_of_sawDone hsaw).resolve_left (by simp)
    have hprefix : outputsOf codec input <+: outputsOf codec (frames.flatMap w.bytes) :=
      drain_prefix hcut
    rw [hwhole] at hprefix
    exact hall ((eq_upTo_of_mem hprefix hmem hends).trans hwhole.symm)

end StreamLocals

/-! ## Records -/

/-- The record tells the result: a success with its counts and its finish reason, or the message
of the error. -/
def RequestRecord.Tells (record : RequestRecord) (streamed : List String) :
    Except ApiError GenerationResult → Prop
  | .ok result =>
      record.ok = true ∧ record.errorClass = none ∧ record.errorDetail = none ∧
        record.chunks = UInt32.ofNat (streamed.countP (!·.isEmpty)) ∧
        record.completionTokens.map UInt32.toNat = some result.completionTokens ∧
        record.tokensSource = some "usage" ∧ record.finishReason = some result.finishReason
  | .error err =>
      record.ok = false ∧ record.errorClass = some "stream_error" ∧
        (∃ message, err = .internal message ∧ record.errorDetail = some message) ∧
        record.chunks = UInt32.ofNat (streamed.countP (!·.isEmpty))

section Candidates

variable {τ δ : Type} [TokenizerTrait τ δ] {x : StreamSetting τ} {a : RequestArgs} {c : Candidate}
  {completed : CompletedRequest}

/-- The whole stream of a candidate that has a report. -/
theorem RequestArgs.tells_streamRecord (hkind : x.kind = .completion)
    (hreport : c.report = some completed) (hconclusive : completed.Conclusive)
    (hlt : completed.outputTokens.length < 2 ^ 32)
    (h : a.codec.CarriesAll (x.streamResponse c.events)) :
    (a.streamRecord (StreamLocals.afterFrames a.codec {}
      ((x.streamResponse c.events).map fun data => some (data.text a.codec.render)))).Tells
        (c.chunks.map Prod.fst) (generationResult x.promptTokens completed) := by
  rw [x.streamResponse_events, hreport] at h ⊢
  obtain ⟨hchunks, hending⟩ := List.forall_mem_append.1 h
  rw [StreamLocals.afterFrames_chunks _ hkind _ _ hchunks, StreamLocals.foldl_addText,
    generationResult]
  cases hsuccess : completed.success with
  | true =>
      rw [StreamSetting.singleEnding, if_pos hsuccess] at hending ⊢
      have hfinal := (List.forall_mem_cons.1 hending).1
      rw [List.map_cons, StreamLocals.afterFrames_cons_some,
        StreamLocals.takePayload_singleFinal _ hkind completed hlt (hfinal _ rfl),
        if_neg Bool.false_ne_true]
      refine ⟨rfl, rfl, rfl, ?_, ?_, rfl, rfl⟩
      · exact congrArg UInt32.ofNat (Nat.zero_add _)
      · exact congrArg some (UInt32.toNat_ofNat_of_lt' hlt)
  | false =>
      cases herror : completed.error with
      | none =>
          rw [hconclusive.error.2 herror] at hsuccess
          cases hsuccess
      | some message =>
          have hlist : x.singleEnding (some completed) =
              [.error message "internal_error", .done] := by
            simp [StreamSetting.singleEnding, hsuccess, herror, internalError]
          rw [hlist] at hending ⊢
          have hfailed := (List.forall_mem_cons.1 hending).1
          rw [List.map_cons, StreamLocals.afterFrames_cons_some,
            StreamLocals.takePayload_error _ (hfailed _ rfl), if_pos rfl,
            if_neg Bool.false_ne_true]
          exact ⟨rfl, rfl, ⟨message, rfl, rfl⟩, congrArg UInt32.ofNat (Nat.zero_add _)⟩

end Candidates

namespace Server

variable {σ τ δ : Type} [GPUExecutorTrait σ] [IncrementalDecoder δ] [TokenizerTrait τ δ]
  {v : Server σ τ δ} {client : ClientId} {c : Client}

/-- The stream of an open client, over any connection: however the bytes are cut and whatever
comments come in between, the record tells what `AppState::generate` returns, if the stream has
come in whole; and a connection that breaks earlier is never recorded as a success of which
something is missing. -/
theorem recorded_of_reachable {config : EngineConfig} {tokenizer : τ} {gpuExecutor : σ}
    (h : Reachable config tokenizer gpuExecutor v) (hrest : v.loopStep = none)
    (hc : v.clients[client]? = some c) {admission : Admission}
    (hreplies : c.replies = [.ok admission]) (hopen : c.events.connected = true)
    {x : StreamSetting τ} (hkind : x.kind = .completion)
    (hprompt : x.promptTokens = admission.promptTokens) {a : RequestArgs}
    (hcodec : a.codec.CarriesAll (x.streamResponse c.events.content)) {w : SseWire} (hw : w.Lawful)
    {frames : List (Option String)}
    (hframes : frames.reduceOption =
      (x.streamResponse c.events.content).map fun data => data.text a.codec.render)
    {chunks : List (List UInt8)} (hcut : chunks.flatten <+: frames.flatMap w.bytes)
    (broken : Option String) :
    let record := a.record (.response 200 "200 OK" (chunks.map .ok ++ broken.toList.map .error))
    chunks.flatten = frames.flatMap w.bytes ∨ record.ok = true →
      record.Tells c.streamed (AppState.generate admission c.events.content) := by
  intro record hwhole
  obtain ⟨s, hf, hpaced, hd⟩ := h.delivers
  obtain ⟨completed, hreport, -, hcontent⟩ := hd.candidate hf hpaced hrest hc hreplies hopen
  have hi := hf.steady.inv
  have hlt : completed.outputTokens.length < 2 ^ 32 := by
    obtain ⟨r, hr, hid⟩ : ∃ r ∈ s.admitted, r.id = completed.requestId :=
      List.mem_map.1 (hi.places.mem_iff.1 (List.mem_append_right _ (List.mem_map_of_mem hreport)))
    obtain ⟨hgen, hallows⟩ := hi.outcome hr hreport hid.symm
    have htruthful := Setting.Allows.truthful hallows hgen (hi.admits r hr).1
    exact (htruthful.kept.length_le.trans htruthful.within).trans_lt (UInt32.toNat_lt _)
  have hlines : ∀ frame ∈ frames, ∀ text ∈ frame, OneLine text.toList := by
    intro frame hframe text htext
    obtain rfl : frame = some text := htext
    have hmem : text ∈ frames.reduceOption := List.reduceOption_mem_iff.2 hframe
    rw [hframes] at hmem
    obtain ⟨data, hdata, rfl⟩ := List.mem_map.1 hmem
    exact oneLine_text (hcodec data hdata)
  have hdone : some "[DONE]" ∈ frames := by
    rw [← List.reduceOption_mem_iff, hframes, hcontent, x.streamResponse_events]
    obtain ⟨last, hending, -⟩ := (hi.conclusive completed hreport).presents x
    rw [hending]
    simp [SseData.text, SseData.toJson?]
  have hrecord : record = a.streamRecord (StreamLocals.afterInput a.codec chunks.flatten broken) :=
    congrArg a.streamRecord (StreamLocals.readStream_eq_afterInput chunks broken)
  rw [hrecord, StreamLocals.afterInput_eq hw hlines hdone hcut broken (by rwa [hrecord] at hwhole),
    StreamLocals.afterFrames_reduceOption, hframes, List.map_map]
  rw [Client.streamed]
  rw [hcontent] at hcodec ⊢
  rw [Candidate.events_chunks, Candidate.events, AppState.generate_chunkEvents]
  have htells :=
    RequestArgs.tells_streamRecord hkind rfl (hi.conclusive completed hreport) hlt hcodec
  rw [hprompt] at htells
  exact htells

def textSetting : StreamSetting SimpleTokenizer where
  kind := .completion
  sse := ⟨"cmpl-1", 0, "tiny"⟩
  promptTokens := 3
  tokenizer := .new
  k := 1

def chunkPayload : StreamPayload := textSetting.kind.chunkPayload textSetting.sse "D" none

def finalPayload : StreamPayload :=
  textSetting.kind.finalPayload textSetting.sse ⟨3, 2, 5⟩ "stop"

def chunkText : String :=
  "\x7b\"choices\":[\x7b\"finish_reason\":null,\"index\":0,\"text\":\"D\"\x7d]," ++
    "\"created\":0,\"id\":\"cmpl-1\",\"model\":\"tiny\",\"object\":\"text_completion\"\x7d"

def finalText : String :=
  "\x7b\"choices\":[\x7b\"finish_reason\":\"stop\",\"index\":0,\"text\":\"\"\x7d]," ++
    "\"created\":0,\"id\":\"cmpl-1\",\"model\":\"tiny\",\"object\":\"text_completion\"," ++
    "\"usage\":\x7b\"completion_tokens\":2,\"prompt_tokens\":3,\"total_tokens\":5\x7d\x7d"

/-- The two texts of a short stream, and their values. -/
def twoTexts : JsonCodec where
  render v := if (v.get? "usage").isSome then finalText else chunkText
  parse text :=
    if text = finalText then .ok finalPayload.toJson
    else if text = chunkText then .ok chunkPayload.toJson
    else .error "expected value at line 1 column 1"

def plainWire : SseWire where
  event text := utf8Bytes ("data: ".toList ++ text.toList) ++ lfDelimiter
  keepAlive := utf8Bytes [':'] ++ lfDelimiter

def smallFrames : List (Option String) :=
  [some chunkText, none, some finalText, some "[DONE]"]

/-- The first byte comes alone. -/
def smallChunks : List (List UInt8) :=
  [(smallFrames.flatMap plainWire.bytes).take 1, (smallFrames.flatMap plainWire.bytes).drop 1]

def smallArgs : RequestArgs := ⟨twoTexts, 0, some 0, none, none⟩

theorem twoTexts_carries_chunk : twoTexts.Carries chunkPayload.toJson := by
  have hrender : twoTexts.render chunkPayload.toJson = chunkText := by
    dsimp only [twoTexts]
    rw [StreamPayload.get?_usage]
    rfl
  have hne : chunkText ≠ finalText := by decide +kernel
  refine ⟨?_, ?_, ?_, ?_⟩ <;> rw [hrender]
  · dsimp only [twoTexts]
    rw [if_neg hne, if_pos rfl]
  · decide +kernel
  · decide +kernel
  · decide +kernel

theorem twoTexts_carries_final : twoTexts.Carries finalPayload.toJson := by
  have hrender : twoTexts.render finalPayload.toJson = finalText := by
    dsimp only [twoTexts]
    rw [StreamPayload.get?_usage]
    rfl
  refine ⟨?_, ?_, ?_, ?_⟩ <;> rw [hrender]
  · dsimp only [twoTexts]
    rw [if_pos rfl]
  · decide +kernel
  · decide +kernel
  · decide +kernel

theorem recorded_of_reachable_small :
    ∃ v c, loopSteps 19 smallServer = some v ∧ v.clients[0]? = some c ∧
      (smallArgs.record (.response 200 "200 OK" (smallChunks.map .ok))).Tells c.streamed
        (AppState.generate ⟨1, 3⟩ c.events.content) := by
  have hvalid : Session.smallConfig.validate = .ok () := by decide +kernel
  have hrun : (loopSteps 19 smallServer).map (fun v => (v.loopStep.isNone, v.clients.map fun c =>
      (c.replies, c.events.connected,
        decide (textSetting.streamResponse c.events.content =
          [.payload chunkPayload, .payload finalPayload, .done])))) =
      some (true, [([.ok ⟨1, 3⟩], true, true), ([.error .emptyInput], true, false)]) := by
    decide +kernel
  obtain ⟨v, hv, hstate⟩ := Option.map_eq_some_iff.1 hrun
  obtain ⟨hrest, hclients⟩ := Prod.mk.inj hstate
  obtain ⟨c, others, hlist, hc, -⟩ := List.map_eq_cons_iff.1 hclients
  obtain ⟨hreplies, hc⟩ := Prod.mk.inj hc
  obtain ⟨hopen, hsent⟩ := Prod.mk.inj hc
  replace hsent := of_decide_eq_true hsent
  have hclient : v.clients[0]? = some c := by rw [hlist]; rfl
  have hreachable := ((Reachable.start hvalid).step
    (.submit "a" { maxTokens := 2 } rfl (by decide)))
    |>.step (.submit "" { maxTokens := 2 } rfl (by decide)) |>.loopSteps hv
  have hcodec : smallArgs.codec.CarriesAll (textSetting.streamResponse c.events.content) := by
    rw [hsent]
    refine List.forall_mem_cons.2 ⟨fun w hw => ?_, List.forall_mem_cons.2 ⟨fun w hw => ?_, ?_⟩⟩
    · exact Option.some.inj hw ▸ twoTexts_carries_chunk
    · exact Option.some.inj hw ▸ twoTexts_carries_final
    · exact List.forall_mem_singleton.2 fun w hw => by cases hw
  have hflat : smallChunks.flatten = smallFrames.flatMap plainWire.bytes := by
    simp only [smallChunks, List.flatten_cons, List.flatten_nil, List.append_nil,
      List.take_append_drop]
  have hframes : smallFrames.reduceOption =
      (textSetting.streamResponse c.events.content).map fun data =>
        data.text smallArgs.codec.render := by
    rw [hsent]
    rfl
  have htells := recorded_of_reachable hreachable (Option.isNone_iff_eq_none.1 hrest) hclient
    hreplies hopen (x := textSetting) rfl rfl hcodec (w := plainWire) ⟨fun _ _ _ => rfl, rfl⟩
    hframes (hflat ▸ List.prefix_rfl) none (.inl hflat)
  exact ⟨v, c, hv, hclient, by simpa using htells⟩

end Server

end PagedServing
