import PagedServing.Server.Routing
import PagedServing.Server.StreamOutcome

/-! # The handlers of single requests

`src/server.rs`: `AppState::generate` and `stream_response`, which turn the events of one request
into one result or into a stream. A stream of one candidate has a path of its own; it yields what
the path for several would yield, unless the channel or the report ends without an explanation.
-/

namespace PagedServing

open Relation LabelledLog

/-! ## One result -/

/-- `AppState::generate` after the admission, with the events that come until the channel is
closed. -/
def AppState.generate (admission : Admission) : List RequestEvent → Except ApiError GenerationResult
  | [] => .error (.internal s!"engine loop ended before request {admission.requestId} completed")
  | .chunk _ _ :: events => AppState.generate admission events
  | .done completed :: _ => generationResult admission.promptTokens completed

@[simp] theorem AppState.generate_chunkEvents (admission : Admission)
    (chunks : List (String × Option TokenLogprobs)) (events : List RequestEvent) :
    generate admission (chunkEvents chunks ++ events) = generate admission events := by
  induction chunks with
  | nil => rfl
  | cons chunk rest ih => exact ih

/-! ## One stream -/

namespace StreamKind

def chunkPayload (kind : StreamKind) (sse : SseMeta) (chunk : String)
    (logprobs : Option LogprobsOutput) : StreamPayload :=
  kind.multiChunkPayload sse 1 0 chunk logprobs

def finalPayload (kind : StreamKind) (sse : SseMeta) (usage : Usage) (finishReason : String) :
    StreamPayload :=
  kind.multiFinalPayload sse [finishReason] usage

end StreamKind

def lostMessage : String := "engine loop ended before request completed"

structure SingleLocals where
  failure : Option String := none
  terminated : Bool := false

/-- What follows the loop. -/
def SingleLocals.closing (l : SingleLocals) : List SseData :=
  (if !l.terminated then [internalError lostMessage] else []) ++
    (l.failure.map internalError).toList ++ [.done]

namespace StreamSetting

variable {τ δ : Type} [TokenizerTrait τ δ]

def singleUsage (x : StreamSetting τ) (completed : CompletedRequest) : Usage where
  promptTokens := x.promptTokens
  completionTokens := completed.outputTokens.length
  totalTokens := x.promptTokens + completed.outputTokens.length

def singleChunk (x : StreamSetting τ) (chunk : String × Option TokenLogprobs) : SseData :=
  .payload (x.kind.chunkPayload x.sse chunk.1
    (chunk.2.map fun lp => logprobsOutput [lp] x.tokenizer x.k))

def singleFinal (x : StreamSetting τ) (completed : CompletedRequest) : StreamPayload :=
  x.kind.finalPayload x.sse (x.singleUsage completed) (completed.finishReason.getD .stop).asStr

/-- One turn of the loop: whether it goes on, its locals, and what it yields. -/
def singleTurn (x : StreamSetting τ) (l : SingleLocals) :
    RequestEvent → Bool × SingleLocals × List SseData
  | .chunk chunk logprobs => (true, l, [x.singleChunk (chunk, logprobs)])
  | .done completed =>
      let l := { l with terminated := true }
      if completed.success then (false, l, [.payload (x.singleFinal completed)])
      else (false, { l with failure := completed.error }, [])

/-- The loop over the events that come until the channel is closed, and what follows it. -/
def singleLoop (x : StreamSetting τ) (l : SingleLocals) : List RequestEvent → List SseData
  | [] => l.closing
  | event :: events =>
      let (goesOn, l, data) := x.singleTurn l event
      data ++ if goesOn then x.singleLoop l events else l.closing

/-- `stream_response` -/
def streamResponse (x : StreamSetting τ) (events : List RequestEvent) : List SseData :=
  x.singleLoop {} events

/-- How a stream ends with this report. -/
def singleEnding (x : StreamSetting τ) : Option CompletedRequest → List SseData
  | none => [internalError lostMessage, .done]
  | some completed =>
      if completed.success then [.payload (x.singleFinal completed), .done]
      else (completed.error.map internalError).toList ++ [.done]

theorem singleLoop_chunkEvents (x : StreamSetting τ) (l : SingleLocals)
    (chunks : List (String × Option TokenLogprobs)) (events : List RequestEvent) :
    x.singleLoop l (chunkEvents chunks ++ events) =
      chunks.map x.singleChunk ++ x.singleLoop l events := by
  induction chunks with
  | nil => rfl
  | cons chunk rest ih => exact congrArg (x.singleChunk chunk :: ·) ih

theorem streamResponse_events (x : StreamSetting τ) (c : Candidate) :
    x.streamResponse c.events = c.chunks.map x.singleChunk ++ x.singleEnding c.report := by
  rw [streamResponse, Candidate.events, singleLoop_chunkEvents]
  congr 1
  cases c.report with
  | none => rfl
  | some completed =>
      by_cases hsuccess : completed.success = true
      · simp [singleLoop, singleTurn, singleEnding, hsuccess, SingleLocals.closing]
      · simp [singleLoop, singleTurn, singleEnding, hsuccess, SingleLocals.closing]

end StreamSetting

/-! ## One candidate among several -/

theorem eq_map_under_zero {α : Type} {log : List (Nat × α)} (h : ∀ p ∈ log, p.1 < 1) :
    log = (under 0 log).map (Prod.mk 0) := by
  induction log with
  | nil => rfl
  | cons p log ih =>
    have hzero : p.1 = 0 := Nat.lt_one_iff.1 (h p List.mem_cons_self)
    have hunder : under 0 (p :: log) = p.2 :: under 0 log := by
      rw [← List.singleton_append, under_append, under_singleton, if_pos hzero]
      rfl
    rw [hunder, List.map_cons, ← ih fun q hq => h q (List.mem_cons_of_mem _ hq), ← hzero]

namespace MultiStream

variable {τ δ : Type} [TokenizerTrait τ δ] {x : StreamSetting τ} {s s' : MultiStream}
  {c : Candidate} {taken : List (Nat × RequestEvent)}

/-- How a stream of several candidates ends when there is one. -/
def aloneEnding (x : StreamSetting τ) : Option CompletedRequest → List SseData
  | none => [internalError unfinishedMessage, .done]
  | some completed =>
      if completed.success then [.payload (x.singleFinal completed), .done]
      else [internalError (completed.error.getD unfinishedMessage), .done]

theorem Collects.out_of_all (h : s.Collects x [c] taken)
    (hall : under 0 (chunksIn taken) = c.chunks) :
    s.out = c.chunks.map x.singleChunk := by
  have hlabels : ∀ p ∈ chunksIn taken, p.1 < 1 := by
    intro p hp
    obtain ⟨⟨i, event⟩, hevent, heq⟩ := List.mem_filterMap.1 hp
    obtain ⟨chunk, -, rfl⟩ := Option.map_eq_some_iff.1 heq
    exact h.accounts.labels _ (List.mem_append_left _ hevent)
  rw [h.out, eq_map_under_zero hlabels, hall, List.map_map]
  rfl

/-- With one candidate nothing has been counted before its report. -/
theorem Collects.alone (h : s.Collects x [c] taken) :
    s.locals.remaining = 1 ∧ s.locals.finishReasons.length = 1 ∧
      s.locals.completionTokens.length = 1 ∧ reportsIn taken = [] := by
  have hremaining : s.locals.remaining + (reportsIn taken).length = 1 := h.tallies.remaining
  have hopen := h.unfinished
  exact ⟨by omega, h.tallies.finishReasons, h.tallies.completionTokens,
    List.length_eq_zero_iff.1 (by omega)⟩

/-- The stream after its loop, with one candidate. -/
structure EndedAlone (x : StreamSetting τ) (c : Candidate) (s : MultiStream) : Prop where
  receiving : s.fanIn.receiving = false
  out : s.out = c.chunks.map x.singleChunk ++ aloneEnding x c.report

/-- The report of the only candidate ends the loop. -/
theorem Collects.done {completed : CompletedRequest} {i : Nat} {rest : List (Nat × RequestEvent)}
    (h : s.Collects x [c] taken) (hmerged : s.fanIn.merged = (i, .done completed) :: rest) :
    (s.receive x 1 i (.done completed) rest).EndedAlone x c := by
  have haccounts := h.accounts.take hmerged
  have hmem : (i, completed) ∈ reportsIn (taken ++ [(i, .done completed)]) :=
    mem_reportsIn.2 (List.mem_append_right _ List.mem_cons_self)
  obtain ⟨c', hc, hreport, hall⟩ := received_report haccounts hmem
  obtain rfl : i = 0 := Nat.lt_one_iff.1 (List.getElem?_eq_some_iff.1 hc).1
  obtain rfl : c = c' := Option.some.inj hc
  rw [chunksIn_append] at hall
  replace hall : under 0 (chunksIn taken) = c.chunks := by
    rw [← hall]
    exact congrArg (under 0) (List.append_nil _).symm
  obtain ⟨hremaining, hreasons, htokens, -⟩ := h.alone
  obtain ⟨oldReason, hreasons⟩ := List.length_eq_one_iff.1 hreasons
  obtain ⟨oldTokens, htokens⟩ := List.length_eq_one_iff.1 htokens
  by_cases hsuccess : completed.success = true
  · obtain ⟨l, hl⟩ : ∃ l : MultiLocals, { s.locals with
        remaining := 0
        finishReasons := [some (completed.finishReason.getD .stop).asStr]
        completionTokens := [completed.outputTokens.length]
        terminated := true } = l := ⟨_, rfl⟩
    have hturn : x.turn 1 s.locals 0 (.done completed) =
        (false, l, [.payload (x.singleFinal completed)]) := by
      rw [x.turn_of_success hsuccess rfl, MultiLocals.complete, ← hl]
      simp [hremaining, hreasons, htokens, StreamSetting.finalPayload, StreamSetting.singleFinal,
        StreamKind.finalPayload, StreamSetting.singleUsage]
    have hclosing := closing_of_terminated (l := l) (hl ▸ rfl) (hl ▸ h.tallies.failure)
    rw [receive_of_stops hturn]
    refine ⟨rfl, ?_⟩
    rw [hclosing, h.out_of_all hall, hreport, aloneEnding, if_pos hsuccess, List.append_assoc]
    rfl
  · have hturn : x.turn 1 s.locals 0 (.done completed) =
        (false, { s.locals with remaining := s.locals.remaining - 1, failure := completed.error },
          []) := if_neg hsuccess
    rw [receive_of_stops hturn]
    refine ⟨rfl, ?_⟩
    rw [h.out_of_all hall, hreport, aloneEnding, List.append_nil, MultiLocals.closing]
    dsimp only
    rw [h.tallies.terminated, if_neg hsuccess]
    cases completed.error <;> rfl

theorem Collects.lost (h : s.Collects x [c] taken) (hend : s.fanIn.Exhausted) :
    { s with fanIn := s.fanIn.drop, out := s.out ++ s.locals.closing }.EndedAlone x c := by
  have hall : under 0 taken = c.events := h.accounts.of_exhausted hend rfl
  have hnone : c.report = none := by
    cases hreport : c.report with
    | none => rfl
    | some completed =>
        have hmem : (0, completed) ∈ reportsIn taken := by
          refine mem_reportsIn.2 (mem_under.1 ?_)
          rw [hall, Candidate.events, hreport]
          exact List.mem_append_right _ List.mem_cons_self
        rw [h.alone.2.2.2] at hmem
        cases hmem
  have hchunks : under 0 (chunksIn taken) = c.chunks := by
    rw [chunksIn, under_filterMap, hall, Candidate.events_chunks]
  refine ⟨rfl, ?_⟩
  rw [h.out_of_all hchunks, MultiLocals.closing, h.tallies.terminated, h.tallies.failure, hnone]
  rfl

theorem collects_or_endedAlone (h : ReflTransGen (Step x 1) (start [c]) s) :
    (∃ taken, s.Collects x [c] taken) ∨ s.EndedAlone x c := by
  induction h with
  | refl => exact .inl ⟨[], collects_start Nat.zero_lt_one⟩
  | tail _ hstep ih =>
    rcases ih with ⟨taken, hcollects⟩ | hended
    · cases hstep with
      | move hmove =>
          exact .inl ⟨taken, hcollects.accounts.move hmove, hcollects.tallies,
            hcollects.unfinished, hcollects.out⟩
      | @receive i event _ _ hmerged =>
          cases event with
          | chunk text logprobs =>
              refine .inl ((hcollects.receive hmerged).resolve_right fun hended => ?_)
              exact absurd (hcollects.accounts.receiving.symm.trans hended.receiving) (by simp)
          | done completed => exact .inr (hcollects.done hmerged)
      | exhausted _ hend => exact .inr (hcollects.lost hend)
    · refine .inr ?_
      cases hstep with
      | move hmove => exact ⟨hmove.receiving_eq.trans hended.receiving, hended.out⟩
      | receive hreceiving => exact absurd (hreceiving.symm.trans hended.receiving) (by simp)
      | exhausted hreceiving => exact absurd (hreceiving.symm.trans hended.receiving) (by simp)

theorem aloneEnding_eq_iff (x : StreamSetting τ) (report : Option CompletedRequest) :
    aloneEnding x report = x.singleEnding report ↔
      ∃ completed, report = some completed ∧
        (completed.success = true ∨ completed.error.isSome = true) := by
  cases report with
  | none =>
      have hne : unfinishedMessage ≠ lostMessage := by decide
      simp [aloneEnding, StreamSetting.singleEnding, internalError, hne]
  | some completed =>
      cases hsuccess : completed.success with
      | true => simp [aloneEnding, StreamSetting.singleEnding, hsuccess]
      | false =>
          cases herror : completed.error <;>
            simp [aloneEnding, StreamSetting.singleEnding, hsuccess, herror]

/-- Whatever the order of the events and of the forwarding task, a stream with one candidate
yields what the path for single candidates does if and only if the candidate has a report that
explains a failure. -/
theorem streamResponse_eq_iff (x : StreamSetting τ) (c : Candidate) (s : MultiStream)
    (h : ReflTransGen (Step x 1) (start [c]) s) (hend : s.fanIn.receiving = false) :
    s.out = x.streamResponse c.events ↔
      ∃ completed, c.report = some completed ∧
        (completed.success = true ∨ completed.error.isSome = true) := by
  rcases collects_or_endedAlone h with ⟨taken, hcollects⟩ | hended
  · rw [hcollects.accounts.receiving] at hend
    cases hend
  · rw [hended.out, x.streamResponse_events, List.append_cancel_left_eq]
    exact aloneEnding_eq_iff x c.report

/-- A stream of one candidate to its end. -/
theorem streamResponse_eq_iff_alone :
    ∃ s : MultiStream, ReflTransGen (Step pairSetting 1)
        (start [⟨[("D", none)], some (pairReport 1 [40])⟩]) s ∧
      s.out = pairSetting.streamResponse [.chunk "D" none, .done (pairReport 1 [40])] := by
  have hrun : ∃ s, ReflTransGen (Step pairSetting 1)
      (start [⟨[("D", none)], some (pairReport 1 [40])⟩]) s ∧ s.fanIn.receiving = false := by
    refine ⟨_, .head (.move (.send (i := 0) rfl rfl)) <|
      .head (.move (.forward (i := 0) rfl rfl rfl rfl)) <|
      .head (.move (.send (i := 0) rfl rfl)) <| .head (.receive rfl rfl) <|
      .head (.move (.forward (i := 0) rfl rfl rfl rfl)) <| .head (.receive rfl rfl) .refl, rfl⟩
  obtain ⟨s, hrun, hend⟩ := hrun
  exact ⟨s, hrun, (streamResponse_eq_iff pairSetting _ s hrun hend).2 ⟨_, rfl, .inl rfl⟩⟩

end MultiStream

/-! ## Both handlers at the server -/

/-- The last payload of a stream tells what `AppState::generate` returns. -/
def StreamSetting.Presents {τ : Type} (x : StreamSetting τ) (last : SseData) :
    Except ApiError GenerationResult → Prop
  | .ok result =>
      last = .payload (x.kind.finalPayload x.sse
        { promptTokens := result.promptTokens
          completionTokens := result.completionTokens
          totalTokens := result.promptTokens + result.completionTokens } result.finishReason)
  | .error err => ∃ message, err = .internal message ∧ last = internalError message

theorem CompletedRequest.Conclusive.presents {τ δ : Type} [TokenizerTrait τ δ]
    {completed : CompletedRequest} (h : completed.Conclusive) (x : StreamSetting τ) :
    ∃ last, x.singleEnding (some completed) = [last, .done] ∧
      x.Presents last (generationResult x.promptTokens completed) := by
  cases hsuccess : completed.success with
  | true =>
      refine ⟨.payload (x.singleFinal completed), ?_, ?_⟩
      · rw [StreamSetting.singleEnding, if_pos hsuccess]
      · rw [generationResult, if_pos hsuccess]
        rfl
  | false =>
      cases herror : completed.error with
      | none =>
          rw [h.error.2 herror] at hsuccess
          cases hsuccess
      | some message =>
          refine ⟨internalError message, ?_, ?_⟩
          · simp [StreamSetting.singleEnding, hsuccess, herror]
          · rw [generationResult, hsuccess, herror]
            exact ⟨message, rfl, rfl⟩

namespace Server

variable {σ τ δ : Type} [GPUExecutorTrait σ] [IncrementalDecoder δ] [TokenizerTrait τ δ]
  {v : Server σ τ δ} {s : Session σ τ δ} {client : ClientId} {c : Client}

/-- What an open client has at the end are the chunks and the report of its request. -/
theorem Delivers.candidate {x : Setting τ} (h : v.Delivers s) (hf : v.Follows x s)
    (hpaced : v.Paced) (hrest : v.loopStep = none) (hc : v.clients[client]? = some c)
    {a : Admission} (hreplies : c.replies = [.ok a]) (hopen : c.events.connected = true) :
    ∃ completed ∈ s.reports, completed.requestId = a.requestId ∧
      c.events.content = Candidate.events ⟨under a.requestId s.chunks, some completed⟩ := by
  obtain ⟨chunks, completed, hid, hcontent⟩ :=
    (h.served hf hpaced hrest).concluded client c a hc hreplies hopen
  have hnone : v.phase.coming = [] := by
    rcases loopStep_eq_none hrest with ⟨hphase, -⟩ | hphase <;> rw [hphase] <;> rfl
  have hevents : c.events.content = under a.requestId s.events := by
    rw [((h.routes hf hpaced).admitted client c a hc hreplies).2 hopen, ← h.routed, hnone,
      List.append_nil]
  have hreport : completed ∈ s.reports := by
    have hmem : RequestEvent.done completed ∈ under a.requestId s.events :=
      hevents ▸ hcontent ▸ List.mem_append_right _ List.mem_cons_self
    have hdone : (completed.requestId, RequestEvent.done completed) ∈ s.events :=
      hid ▸ mem_under.1 hmem
    exact mem_reports_of_event hdone
  refine ⟨completed, hreport, hid, ?_⟩
  rw [hevents, Session.events, eventsOf, under_append, under_chunks, ← hid,
    under_reports_of_mem hf.steady.inv.reports_nodup hreport]
  rfl

/-- When the loop has nothing more to do, a handler that streams and one that does not tell
every open client the same about its request. -/
theorem presents_of_reachable {config : EngineConfig} {tokenizer : τ} {gpuExecutor : σ}
    (h : Reachable config tokenizer gpuExecutor v) (hrest : v.loopStep = none)
    (hc : v.clients[client]? = some c) {a : Admission} (hreplies : c.replies = [.ok a])
    (hopen : c.events.connected = true) (x : StreamSetting τ)
    (hprompt : x.promptTokens = a.promptTokens) :
    ∃ last, x.streamResponse c.events.content =
        (c.events.content.filterMap RequestEvent.asChunk).map x.singleChunk ++ [last, .done] ∧
      x.Presents last (AppState.generate a c.events.content) := by
  obtain ⟨s, hf, hpaced, hd⟩ := h.delivers
  obtain ⟨completed, hreport, -, hcontent⟩ :=
    hd.candidate hf hpaced hrest hc hreplies hopen
  obtain ⟨last, hending, hpresents⟩ := (hf.steady.inv.conclusive completed hreport).presents x
  refine ⟨last, ?_, ?_⟩
  · rw [hcontent, x.streamResponse_events, Candidate.events_chunks, hending]
  · rw [hcontent, Candidate.events, AppState.generate_chunkEvents]
    rw [hprompt] at hpresents
    exact hpresents

theorem presents_of_reachable_small :
    ∃ v c a last, loopSteps 19 smallServer = some v ∧ v.clients[0]? = some c ∧
      c.replies = [.ok a] ∧
      MultiStream.pairSetting.Presents last (AppState.generate a c.events.content) := by
  have hvalid : Session.smallConfig.validate = .ok () := by decide +kernel
  have hrun : (loopSteps 19 smallServer).map (fun v =>
      (v.loopStep.isNone, v.clients.map fun c => (c.replies, c.events.connected))) =
        some (true, [([.ok ⟨1, 3⟩], true), ([.error (.emptyInput)], true)]) := by
    decide +kernel
  obtain ⟨v, hv, hstate⟩ := Option.map_eq_some_iff.1 hrun
  obtain ⟨hrest, hclients⟩ := Prod.mk.inj hstate
  obtain ⟨c, others, hlist, hc, -⟩ := List.map_eq_cons_iff.1 hclients
  obtain ⟨hreplies, hopen⟩ := Prod.mk.inj hc
  have hclient : v.clients[0]? = some c := by rw [hlist]; rfl
  have hreachable := ((Reachable.start hvalid).step
    (.submit "a" { maxTokens := 2 } rfl (by decide)))
    |>.step (.submit "" { maxTokens := 2 } rfl (by decide)) |>.loopSteps hv
  obtain ⟨last, -, hpresents⟩ := presents_of_reachable hreachable
    (Option.isNone_iff_eq_none.1 hrest) hclient hreplies hopen MultiStream.pairSetting rfl
  exact ⟨v, c, ⟨1, 3⟩, last, hv, hclient, hreplies, hpresents⟩

end Server

end PagedServing
