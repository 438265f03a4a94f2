import PagedServing.Engine.Records
import PagedServing.Engine.Refinement

/-! # Errors of incremental decoders

An error of a decoder fails its request as long as that is still active. The token that
completes a request has moved it out of reach before its decoder is asked.
-/

namespace PagedServing

open Scheduler Relation LabelledLog

section Reports

variable {τ δ : Type} [TokenizerTrait τ δ] {tokenizer : τ} {eosTokenId : TokenId} {req : Request}

private theorem report_decoded {text : String}
    (hdecode : TokenizerTrait.tryDecode tokenizer req.outputTokens = .ok text) :
    (({ req with state := .completed } : Request).report tokenizer eosTokenId).success = true := by
  simp [Request.report, hdecode]

private theorem report_undecoded {message : String}
    (hdecode : TokenizerTrait.tryDecode tokenizer req.outputTokens = .error message) :
    (({ req with state := .completed } : Request).report tokenizer eosTokenId).success = false ∧
      (({ req with state := .completed } : Request).report tokenizer eosTokenId).error =
        some (decodeFailed message) := by
  simp [Request.report, hdecode]

end Reports

section Records

variable {τ δ : Type} [IncrementalDecoder δ] [TokenizerTrait τ δ] {x : Setting τ} {r : Request}
  {out : List TokenId} {errors : List String} {report : CompletedRequest} {v : Record δ}

/-- The error of a new decoder at the last of these tokens. -/
def Setting.lastError (x : Setting τ) (out : List TokenId) : List String :=
  out.getLast?.elim [] fun token =>
    pushError (some (x.decoded out.dropLast : List String × δ).2) token

/-- How a request ends with these errors of its decoder. -/
inductive Setting.Errs (x : Setting τ) (r : Request) (out : List TokenId) :
    List String → Request → Option δ → Prop
  | failed {req : Request} {decoder : Option δ} (reason : String)
      (hopen : out ≠ [] → x.Open r out) : Errs x r out [] (req.fail reason) decoder
  | rejected {req : Request} {decoder : Option δ} (message : String) (hopen : x.Open r out) :
      Errs x r out [message] (req.fail (decodeFailed message)) decoder
  | stopped {req : Request} {keep : Nat}
      (hstop : (r.withOutput out).stopKeep x.tokenizer = some keep) : Errs x r out [] req none
  | finished {req : Request} (hreq : r.After out req)
      (hfin : x.finishes (r.withOutput out) = true)
      (hstop : (r.withOutput out).stopKeep x.tokenizer = none) :
      Errs x r out (x.lastError out) { req with state := .completed } (some (x.decoded out).2)

/-- Nothing has gone wrong with the decoder of a live request. -/
def Setting.ErrsAt (x : Setting τ) (r : Request) (out : List TokenId) (errors : List String) :
    Place δ → Prop
  | .waiting _ => errors = []
  | .running _ _ => errors = []
  | .ended req decoder => x.Errs r out errors req decoder
  | .reported report => ∃ req decoder before, x.Errs r out before req decoder ∧
      report = req.report x.tokenizer x.eosTokenId ∧ errors = before ++ x.flushError req decoder

/-- The errors of a served token. -/
theorem Course.errs_settle {seq : Sequence} {decoder : δ} {texts : List String}
    (hb : x.Between r out seq decoder texts) (row : OutputRow) :
    x.ErrsAt r (out ++ [row.token]) (pushError (x.feeds (seq.next row) decoder) row.token)
      (x.settle (seq.next row) decoder row.token).1 := by
  have hafter : r.After (out ++ [row.token]) (seq.next row).request :=
    ⟨hb.after.id, hb.after.inputTokens, hb.after.params,
      congrArg (· ++ [row.token]) hb.after.outputTokens, hb.after.stopSequenceHit⟩
  cases hstop : (seq.next row).request.stopKeep x.tokenizer with
  | some keep =>
      have hfeeds : x.feeds (seq.next row) decoder = none := by simp [Setting.feeds, hstop]
      rw [hfeeds]
      cases hfin : x.finishes (seq.next row).request with
      | true =>
          rw [Setting.settle_finished_hit decoder row.token hfin hstop]
          exact .stopped (hafter.stopKeep.symm.trans hstop)
      | false =>
          rw [Setting.settle_hit decoder row.token hfin hstop]
          exact .stopped (hafter.stopKeep.symm.trans hstop)
  | none =>
      have hfeeds : x.feeds (seq.next row) decoder = some decoder := by
        simp [Setting.feeds, hstop]
      have hlast : pushError (some decoder) row.token = x.lastError (out ++ [row.token]) := by
        rw [Setting.lastError, List.getLast?_concat, List.dropLast_concat, ← hb.decoder]
        rfl
      rw [hfeeds]
      cases hfin : x.finishes (seq.next row).request with
      | true =>
          rw [Setting.settle_finished decoder row.token hfin hstop, hlast]
          have hdecoder : (IncrementalDecoder.push decoder row.token).2 =
              (x.decoded (out ++ [row.token])).2 := by
            rw [x.decoded_concat, hb.decoder]
          rw [hdecoder]
          exact .finished hafter (hafter.finishes.symm.trans hfin)
            (hafter.stopKeep.symm.trans hstop)
      | false =>
          have hopen : x.Open r (out ++ [row.token]) :=
            ⟨hafter.finishes.symm.trans hfin, hafter.stopKeep.symm.trans hstop⟩
          rw [Setting.settle_open decoder row.token hfin hstop]
          cases hpush : (IncrementalDecoder.push decoder row.token).1 with
          | ok pushed => simp [Setting.ErrsAt, pushError, hpush, decoderError]
          | error message =>
              simp only [pushError, hpush, decoderError, Option.elim_some]
              exact .rejected message hopen

theorem Record.Steps.errs (hr : x.Admits r) (h : Record.Steps x r (Record.start x) v) :
    x.ErrsAt r (v.rows.map (·.token)) v.errors v.place := by
  induction h with
  | refl => rfl
  | @tail v v' hsteps hstep ih =>
    obtain ⟨texts, hallows⟩ := Record.Steps.allows hr hsteps
    obtain ⟨place, rows, chunks, errors⟩ := v
    cases hstep with
    | abort reason hlive =>
        cases hlive with
        | waiting => exact ih ▸ .failed reason fun h => absurd hallows.1 h
        | running => exact ih ▸ .failed reason hallows.2.opens
    | serve row hsched =>
        have hb := Course.between_of_scheduled hr hallows hsched
        have hnone : errors = [] := by
          cases hsched with
          | start => exact ih
          | step => exact ih
        have hsettle := Course.errs_settle hb row
        rw [hnone, List.map_append]
        exact hsettle
    | report hplace =>
        dsimp only at hplace
        rw [hplace] at ih
        exact ⟨_, _, _, ih, rfl, rfl⟩

/-! ## What a report discloses -/

/-- With an error of its decoder a request is reported as failed by the tokenizer. -/
def CompletedRequest.Discloses (report : CompletedRequest) (errors : List String) : Prop :=
  errors = [] ∨ report.success = false ∧ ∃ message, report.error = some (decodeFailed message)

/-- The last of these tokens completes the request, whose text decodes at once, and its
decoder returns an error for that token or at its end. -/
structure Setting.Swallows (x : Setting τ) (r : Request) (out : List TokenId) : Prop where
  finishes : x.finishes (r.withOutput out) = true
  stopKeep : (r.withOutput out).stopKeep x.tokenizer = none
  decodes : ∃ text, TokenizerTrait.tryDecode x.tokenizer out = .ok text
  errs : x.lastError out ++ finishError (some (x.decoded out : List String × δ).2) ≠ []

theorem Setting.finishes_nil (hr : x.Admits r) : x.finishes (r.withOutput []) = false := by
  have hfits := hr.fits
  have hpos := hr.maxTokens_pos
  have hmax : ¬ x.config.maxModelLen.toNat ≤ (r.withOutput []).totalTokens := by
    have hlen : (r.withOutput []).totalTokens = r.inputTokens.length := rfl
    omega
  have hcount : ¬ (r.withOutput []).outputTokens.length ≥ (r.withOutput []).params.maxTokens.toNat :=
    Nat.not_le_of_lt hpos
  rw [Setting.finishes, Request.isFinished, Request.isComplete, if_neg hcount,
    decide_eq_false hmax]
  rfl

theorem Setting.ErrsAt.discloses_iff (hr : x.Admits r)
    (h : x.ErrsAt r out errors (.reported report : Place δ)) :
    report.Discloses errors ↔ ¬ x.Swallows r out := by
  obtain ⟨req, decoder, before, herrs, rfl, rfl⟩ := h
  have hopen : (out ≠ [] → x.Open r out) → ¬ x.Swallows r out := by
    intro hopen hswallows
    have hfin := hswallows.finishes
    by_cases hout : out = []
    · rw [hout, Setting.finishes_nil hr] at hfin
      cases hfin
    · rw [(hopen hout).finishes] at hfin
      cases hfin
  cases herrs with
  | failed reason hgoes =>
      refine iff_of_true (.inl ?_) (hopen hgoes)
      simp [flushError, Request.report, Request.fail]
  | rejected message hgoes =>
      exact iff_of_true (.inr ⟨rfl, message, rfl⟩) (hopen fun _ => hgoes)
  | stopped hstop =>
      refine iff_of_true (.inl ?_) fun hswallows => ?_
      · simp [flushError, finishError]
      · exact absurd (hswallows.stopKeep.symm.trans hstop) (by simp)
  | @finished req hreq hfin hstop =>
      cases hdecode : TokenizerTrait.tryDecode x.tokenizer out with
      | error message =>
          rw [← hreq.outputTokens] at hdecode
          obtain ⟨hfailed, herror⟩ := report_undecoded hdecode
          refine iff_of_true (.inr ⟨hfailed, message, herror⟩) fun hswallows => ?_
          obtain ⟨text, htext⟩ := hswallows.decodes
          rw [← hreq.outputTokens, hdecode] at htext
          cases htext
      | ok text =>
          rw [← hreq.outputTokens] at hdecode
          rw [CompletedRequest.Discloses, flushError, report_decoded hdecode, if_pos rfl]
          constructor
          · rintro (hnone | ⟨hfalse, -⟩) hswallows
            · exact hswallows.errs hnone
            · cases hfalse
          · intro hno
            by_contra hsome
            rw [hreq.outputTokens] at hdecode
            exact hno ⟨hfin, hstop, ⟨text, hdecode⟩, fun hnone => hsome (.inl hnone)⟩

end Records

/-! ## Runs -/

namespace Session

variable {σ τ δ : Type} [GPUExecutorTrait σ] [IncrementalDecoder δ] [TokenizerTrait τ δ]

/-- The errors that the decoder of a request returns in a run. -/
def errorsOf (s : Session σ τ δ) (ops : List EngineOp) (id : RequestId) : List String :=
  under id (seen stepErrors s ops)

section Steps

variable {x : Setting τ} {answer : List TokenId → TokenId → Prop} {R : σ → Fed → Prop}
  {s : Session σ τ δ} {chunks : List (RequestId × StreamedChunk)}
  {errors : List (RequestId × String)}

/-- After a step every request of which a decoder has returned an error is reported. -/
theorem Documented.reported_step (hA : Answering σ answer R) (hi : s.Inv answer R x)
    (hsettled : Settled s.calls) (h : s.step.Documented x chunks errors) {id : RequestId}
    (hid : id ∉ s.step.reports.map (·.requestId)) : under id errors = [] := by
  by_cases hadmitted : id ∈ s.step.admitted.map (·.id)
  · obtain ⟨r, hr, rfl⟩ := List.mem_map.1 hadmitted
    obtain ⟨v, hsteps, hv⟩ := h.records r hr
    have herrs := Record.Steps.errs ((inv_step hA hi hsettled).1.admits r hr).1 hsteps
    have hplace := hv.place
    rw [← hv.errors]
    cases hat : v.place with
    | waiting d =>
        rw [hat] at herrs
        exact herrs
    | running seq d =>
        rw [hat] at herrs
        exact herrs
    | ended req d =>
        have hsound := (advance_stage hA hi hsettled).sound
        have hnone : s.step.engine.scheduler.completedRequests = [] := by
          rw [step_eq hi.sound, collect,
            (InferenceEngine.collectCompletedRequests_collected hsound).scheduler]
          rfl
        rw [hat] at hplace
        have hmem : (r.id, req) ∈ s.step.engine.scheduler.completedRequests := hplace.1
        rw [hnone] at hmem
        cases hmem
    | reported report =>
        obtain ⟨hreport, heq⟩ := hv.reported report hat
        exact absurd (List.mem_map.2 ⟨report, hreport, heq⟩) hid
  · exact (h.strangers id hadmitted).2

end Steps

variable {config : EngineConfig} {tokenizer : τ} {gpuExecutor : σ}

/-- A request that has not been reported has had no error of its decoder. -/
theorem errorsOf_eq_nil (hvalid : config.validate = .ok ()) (ops : List EngineOp) {id : RequestId}
    (hid : id ∉ ((new config tokenizer gpuExecutor).run ops).reports.map (·.requestId)) :
    (new config tokenizer gpuExecutor).errorsOf ops id = [] := by
  induction ops using List.reverseRecOn with
  | nil => rfl
  | append_singleton ops op ih =>
      have hrun : (new config tokenizer gpuExecutor).run (ops ++ [op]) =
          ((new config tokenizer gpuExecutor).run ops).apply op := by
        rw [run, List.foldl_append]
        rfl
      have hafter := documented_run hvalid tokenizer gpuExecutor (ops ++ [op])
      rw [hrun] at hid hafter
      by_cases hop : op = .stepEvents
      · subst hop
        have hreach : ((new config tokenizer gpuExecutor).run ops).Reachable config tokenizer
          gpuExecutor := ⟨hvalid, ops, rfl⟩
        exact hafter.reported_step (Answering.any σ) hreach.inv_any.1 hreach.inv_any.2 hid
      · rw [errorsOf, seen_concat, if_neg hop, List.append_nil]
        exact ih fun hmem => hid (((prefix_apply _ op).2.map _).subset hmem)

/-- An error of a decoder, or of its flush, is disclosed by the report of its request if and
only if the token that completed the request did not swallow it. -/
theorem discloses_iff_of_run (hvalid : config.validate = .ok ()) (ops : List EngineOp)
    {r : Request} (hr : r ∈ ((new config tokenizer gpuExecutor).run ops).admitted) :
    ((new config tokenizer gpuExecutor).errorsOf ops r.id ≠ [] →
        ∃ report ∈ ((new config tokenizer gpuExecutor).run ops).reports,
          report.requestId = r.id) ∧
      ∀ report ∈ ((new config tokenizer gpuExecutor).run ops).reports, report.requestId = r.id →
        (report.Discloses ((new config tokenizer gpuExecutor).errorsOf ops r.id) ↔
          ¬ (settingOf config tokenizer).Swallows r
            (((new config tokenizer gpuExecutor).run ops).generated r.id)) := by
  have hreach : ((new config tokenizer gpuExecutor).run ops).Reachable config tokenizer
    gpuExecutor := ⟨hvalid, ops, rfl⟩
  have hi := hreach.inv_any.1
  constructor
  · intro herrors
    by_contra hnone
    refine herrors (errorsOf_eq_nil hvalid ops fun hmem => hnone ?_)
    obtain ⟨report, hreport, heq⟩ := List.mem_map.1 hmem
    exact ⟨report, hreport, heq⟩
  · intro report hreport hid
    obtain ⟨v, hsteps, hv, hplace⟩ :=
      hi.record (documented_run hvalid tokenizer gpuExecutor ops) hr hreport hid
    have hadmits := (hi.admits r hr).1
    have herrs := Record.Steps.errs hadmits hsteps
    rw [hplace, hv.errors, hv.rows, ← tokensOf_eq_rowsOf] at herrs
    exact herrs.discloses_iff hadmits

/-! ## A decoder that rejects every token -/

end Session

structure AlwaysFailDecoder where

instance : IncrementalDecoder AlwaysFailDecoder where
  push decoder _ := (.error "simulated incremental decode failure", decoder)
  finish decoder := (.ok none, decoder)

/-- The character tokenizer with decoders that fail. -/
structure FailingDecodeTokenizer where
  inner : SimpleTokenizer

instance : TokenizerTrait FailingDecodeTokenizer AlwaysFailDecoder where
  tryEncode t := TokenizerTrait.tryEncode t.inner
  tryDecode t := TokenizerTrait.tryDecode t.inner
  vocabSize t := TokenizerTrait.vocabSize t.inner
  bosTokenId t := TokenizerTrait.bosTokenId t.inner
  eosTokenId t := TokenizerTrait.eosTokenId t.inner
  padTokenId t := TokenizerTrait.padTokenId t.inner
  createDecoder _ := {}

namespace Session

def failingTokenizer : FailingDecodeTokenizer := ⟨SimpleTokenizer.new⟩

/-- The first token is also the last. -/
def failingOps : List EngineOp := [.submitRequest "a" { maxTokens := 1 }, .stepEvents]

def failingStart : Session (FunctionBackend stopAtFour) FailingDecodeTokenizer AlwaysFailDecoder :=
  new smallConfig failingTokenizer ⟨fun _ => []⟩

def failingRequest : Request := Request.new 1 [1, 69, 2] { maxTokens := 1 }

def failingReport : CompletedRequest where
  requestId := 1
  inputText := some "a"
  outputText := "D"
  outputTokens := [40]
  success := true
  error := none
  finishReason := some .length
  logprobs := none

theorem discloses_iff_of_run_failing :
    failingReport.Discloses ["simulated incremental decode failure"] ↔
      ¬ (settingOf smallConfig failingTokenizer).Swallows failingRequest [40] := by
  have hr : failingRequest ∈ (failingStart.run failingOps).admitted := by decide +kernel
  have hreport : failingReport ∈ (failingStart.run failingOps).reports := by decide +kernel
  have herrors : failingStart.errorsOf failingOps 1 = ["simulated incremental decode failure"] := by
    decide +kernel
  have htokens : (failingStart.run failingOps).generated 1 = [40] := by decide +kernel
  rw [← herrors, ← htokens]
  exact (discloses_iff_of_run (by decide +kernel) failingOps hr).2 failingReport hreport rfl

/-- A decoder that rejects the last token goes unnoticed. -/
theorem not_discloses_failing :
    ¬ ∀ (ops : List EngineOp) (r : Request) (report : CompletedRequest),
      r ∈ (failingStart.run ops).admitted → report ∈ (failingStart.run ops).reports →
      report.requestId = r.id → report.Discloses (failingStart.errorsOf ops r.id) := by
  intro h
  have hr : failingRequest ∈ (failingStart.run failingOps).admitted := by decide +kernel
  have hreport : failingReport ∈ (failingStart.run failingOps).reports := by decide +kernel
  have herrors : failingStart.errorsOf failingOps failingRequest.id ≠ [] := by decide +kernel
  rcases h failingOps failingRequest failingReport hr hreport rfl with hnone | ⟨hfalse, -⟩
  · exact herrors hnone
  · cases hfalse

end Session

end PagedServing
