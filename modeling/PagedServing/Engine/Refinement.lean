import PagedServing.Engine.Runs

/-! # Continuous batching refines generation one at a time

The report of a request is determined by its own prompt and limits: over a backend
whose answer is a function of what it has been fed, it is the reference output.
-/

namespace PagedServing

open Scheduler Relation Autoregressive

/-! ## Where generation ends -/

section Limits

variable {τ δ : Type} {x : Setting τ} {r : Request} {out : List TokenId}

/-- Within the admitted lengths only `max_tokens` and the EOS token end a generation. -/
theorem Setting.finishes_iff (hr : x.Admits r) :
    x.finishes (r.withOutput out) = true ↔
      r.params.maxTokens.toNat ≤ out.length ∨ out.getLast? = some x.eosTokenId := by
  have hfits := hr.fits
  have hmodel : x.config.maxModelLen.toNat ≤ (r.withOutput out).totalTokens →
      r.params.maxTokens.toNat ≤ out.length := by
    intro h
    rw [Request.totalTokens] at h
    have hlen : (r.withOutput out).inputTokens.length = r.inputTokens.length := rfl
    have hout : (r.withOutput out).outputTokens.length = out.length := rfl
    omega
  rw [finishes, Request.isFinished, Bool.or_eq_true, decide_eq_true_eq]
  have hcomplete : (r.withOutput out).isComplete x.eosTokenId = true ↔
      r.params.maxTokens.toNat ≤ out.length ∨ out.getLast? = some x.eosTokenId := by
    by_cases hlen : r.params.maxTokens.toNat ≤ out.length
    · simp [Request.isComplete, Request.withOutput, hlen]
    · cases hlast : out.getLast? <;>
        simp [Request.isComplete, Request.withOutput, hlen, hlast]
  rw [hcomplete, or_iff_right_of_imp fun h => .inl (hmodel h)]

theorem Setting.finishes_eq_false (hr : x.Admits r) (h : x.finishes (r.withOutput out) = false) :
    out.length < r.params.maxTokens.toNat ∧ out.getLast? ≠ some x.eosTokenId := by
  have hopen : ¬ x.finishes (r.withOutput out) = true := by simp [h]
  rw [finishes_iff hr, not_or, Nat.not_le] at hopen
  exact hopen

variable [TokenizerTrait τ δ] {answer : List TokenId → TokenId → Prop}

theorem Request.stopKeep_of_no_stop (hstop : r.params.stop = []) (out : List TokenId) :
    (r.withOutput out).stopKeep x.tokenizer = none := by
  simp [Request.stopKeep, Request.withOutput, hstop]

namespace Setting.Generates

theorem length_le (h : x.Generates answer r out) (hr : x.Admits r) :
    out.length ≤ r.params.maxTokens.toNat := by
  rcases Nat.lt_or_ge 1 out.length with hlen | hlen
  · have hopen := h.opens (out.length - 1) (by omega) (by omega)
    have := (finishes_eq_false hr hopen.finishes).1
    rw [List.length_take] at this
    omega
  · exact hlen.trans hr.maxTokens_pos

/-- No token before the last is the EOS token. -/
theorem dropLast_ne_eos (h : x.Generates answer r out) (hr : x.Admits r) :
    ∀ t ∈ out.dropLast, (t == x.eosTokenId) = false := by
  intro t ht
  obtain ⟨k, hk, rfl⟩ := List.mem_iff_getElem.1 ht
  rw [List.length_dropLast] at hk
  have hopen := h.opens (k + 1) (by omega) (by omega)
  have hlast : (out.take (k + 1)).getLast? = some out.dropLast[k] := by
    rw [List.getElem_dropLast, List.getLast?_take, if_neg (by omega)]
    simp [List.getElem?_eq_getElem (show k < out.length by omega)]
  rw [beq_eq_false_iff_ne]
  intro heq
  exact (finishes_eq_false hr hopen.finishes).2 (hlast.trans (congrArg some heq))

/-- A generation that is over has its full length or ends with the EOS token. -/
theorem ends (h : x.Generates answer r out) (hr : x.Admits r)
    (hfin : x.finishes (r.withOutput out) = true) :
    out.length = r.params.maxTokens.toNat ∨
      ∃ t, out.getLast? = some t ∧ (t == x.eosTokenId) = true := by
  rcases (finishes_iff hr).1 hfin with hfull | hlast
  · exact .inl ((h.length_le hr).antisymm hfull)
  · exact .inr ⟨_, hlast, beq_self_eq_true _⟩

end Setting.Generates

end Limits

/-! ## The reference output -/

section Reference

variable {τ δ : Type} [IncrementalDecoder δ] [TokenizerTrait τ δ] {x : Setting τ} {r : Request}
  {out : List TokenId} {texts : List String} {report : CompletedRequest}
  {f : List TokenId → TokenId}

/-- What one-at-a-time generation with `f` returns for a request. -/
def Setting.reference (x : Setting τ) (f : List TokenId → TokenId) (r : Request) : List TokenId :=
  generate f (· == x.eosTokenId) r.params.maxTokens.toNat r.inputTokens

/-- What the report of a request owes to its reference output. -/
structure CompletedRequest.Refines (report : CompletedRequest) (reference : List TokenId)
    (eosTokenId : TokenId) : Prop where
  tokens : report.outputTokens <+: reference
  complete : report.success = true ↔ report.outputTokens = reference
  finishReason : report.success = true → report.finishReason =
    some (if reference.getLast? = some eosTokenId then .stop else .length)

theorem Setting.Allows.refines (hr : x.Admits r) (hstop : r.params.stop = [])
    (hdecode : ∀ tokens, ∃ text, TokenizerTrait.tryDecode x.tokenizer tokens = .ok text)
    (hgen : x.Generates (fun fed t => t = f fed) r out)
    (h : x.Allows r out texts (.reported report : Place δ)) :
    report.Refines (x.reference f r) x.eosTokenId := by
  obtain ⟨req, decoder, before, hended, rfl, -⟩ := h
  have hanswers : Answers f r.inputTokens out := hgen.answers
  have hlen := hgen.length_le hr
  have hgo := hgen.dropLast_ne_eos hr
  have hinitial : out <+: x.reference f r := prefix_generate hanswers hlen hgo
  obtain ⟨text, htext⟩ := hdecode out
  cases hended with
  | @failed req reason hreq hopen =>
      have hout : ((req.fail reason).report x.tokenizer x.eosTokenId).outputTokens = out :=
        hreq.outputTokens
      have hsuccess : ((req.fail reason).report x.tokenizer x.eosTokenId).success = false := rfl
      have hshort : out.length < (x.reference f r).length := by
        by_cases hne : out = []
        · refine length_lt_generate hanswers ?_ (by simp [hne])
          rw [hne]
          exact hr.maxTokens_pos
        · obtain ⟨hroom, hlast⟩ := finishes_eq_false hr (hopen hne).finishes
          refine length_lt_generate hanswers hroom ?_
          intro t ht
          rw [← List.dropLast_append_getLast hne] at ht
          rcases List.mem_append.1 ht with ht | ht
          · exact hgo t ht
          · rw [List.mem_singleton.1 ht, beq_eq_false_iff_ne]
            intro heq
            exact hlast ((List.getLast?_eq_some_getLast hne).trans (congrArg some heq))
      refine ⟨hout ▸ hinitial, ?_, by simp [hsuccess]⟩
      refine iff_of_false (by simp [hsuccess]) fun heq => hshort.ne ?_
      exact congrArg List.length (hout.symm.trans heq)
  | @finished req hreq hne hfin _ =>
      have hout : req.outputTokens = out := hreq.outputTokens
      have hend := (finishes_iff hr).1 hfin
      have heq : out = x.reference f r := by
        refine eq_generate hanswers hlen hgo ?_
        rcases hend with hfull | hlast
        · exact .inl (hlen.antisymm hfull)
        · exact .inr ⟨_, hlast, beq_self_eq_true _⟩
      have hreport : (({ req with state := .completed } : Request).report x.tokenizer
          x.eosTokenId).success = true := by
        simp [Request.report, hout, htext]
      have houtput : (({ req with state := .completed } : Request).report x.tokenizer
          x.eosTokenId).outputTokens = out := hout
      refine ⟨houtput ▸ hinitial, iff_of_true hreport (houtput.trans heq), fun _ => ?_⟩
      rw [← heq]
      by_cases hlast : out.getLast? = some x.eosTokenId <;>
        simp [Request.report, hout, htext, hreq.stopSequenceHit, hlast]
  | finishedHit _ _ _ hhit => simp [Request.stopKeep_of_no_stop hstop] at hhit
  | stopped _ _ _ hhit => simp [Request.stopKeep_of_no_stop hstop] at hhit

end Reference

/-! ## Backends that compute a function -/

/-- A backend that keeps what it has been fed and answers `f` of that. -/
structure FunctionBackend (f : List TokenId → TokenId) where
  fed : Fed

namespace FunctionBackend

variable {f : List TokenId → TokenId}

def answerTo (backend : FunctionBackend f) (batch : ExecutionBatch) : ExecutionOutput where
  seqIds := batch.seqIds
  nextTokens := batch.seqIds.map fun id => f (backend.fed.feed batch id)

/-- It refuses a batch to which it has no well-formed answer. -/
instance : GPUExecutorTrait (FunctionBackend f) where
  execute backend batch :=
    match validateExecutionOutput batch (backend.answerTo batch) with
    | .ok _ => (.ok (backend.answerTo batch), ⟨backend.fed.feed batch⟩)
    | .error e => (.error e, backend)

theorem answerTo_rows (backend : FunctionBackend f) (batch : ExecutionBatch) :
    ∀ row ∈ (backend.answerTo batch).seqIds.zip (backend.answerTo batch).nextTokens,
      row.2 = f (backend.fed.feed batch row.1) := by
  intro row hrow
  obtain ⟨k, hk, rfl⟩ := List.mem_iff_getElem.1 hrow
  simp [answerTo]

theorem answering (f : List TokenId → TokenId) :
    Answering (FunctionBackend f) (fun fed t => t = f fed) fun backend fed => backend.fed = fed where
  accepted := by
    rintro backend backend' _ batch output rfl hrun -
    simp only [GPUExecutorTrait.execute] at hrun
    cases hvalid : validateExecutionOutput batch (backend.answerTo batch) with
    | ok u =>
        simp only [hvalid, Prod.mk.injEq, Except.ok.injEq] at hrun
        obtain ⟨rfl, rfl⟩ := hrun
        exact ⟨rfl, backend.answerTo_rows batch⟩
    | error e => simp [hvalid] at hrun
  failed := by
    rintro backend backend' _ batch reply rfl hrun hbad
    simp only [GPUExecutorTrait.execute] at hrun
    cases hvalid : validateExecutionOutput batch (backend.answerTo batch) with
    | ok u =>
        simp only [hvalid, Prod.mk.injEq] at hrun
        exact absurd hvalid (hbad _ hrun.1.symm)
    | error e =>
        simp only [hvalid, Prod.mk.injEq] at hrun
        exact ⟨_, rfl, congrArg (·.fed.feed batch) hrun.2.symm⟩
  finished _ h := ⟨_, h, fun _ _ => rfl⟩

end FunctionBackend

namespace Session

/-- Over a backend that computes `f`, every report of a request without stop strings is
told by its reference output alone, whatever else the engine was asked to do. -/
theorem refines_of_reachable {σ τ δ : Type} [GPUExecutorTrait σ] [IncrementalDecoder δ]
    [TokenizerTrait τ δ] {f : List TokenId → TokenId} {R : σ → Fed → Prop}
    {config : EngineConfig} {tokenizer : τ} {gpuExecutor : σ} {fed : Fed} {s : Session σ τ δ}
    (hA : Answering σ (fun fed t => t = f fed) R) (hR : R gpuExecutor fed)
    (hdecode : ∀ tokens, ∃ text, TokenizerTrait.tryDecode tokenizer tokens = .ok text)
    (hs : s.Reachable config tokenizer gpuExecutor) {r : Request} {report : CompletedRequest}
    (hr : r ∈ s.admitted) (hreport : report ∈ s.reports) (hid : report.requestId = r.id)
    (hstop : r.params.stop = []) :
    report.Refines
      (generate f (· == TokenizerTrait.eosTokenId tokenizer) r.params.maxTokens.toNat
        r.inputTokens)
      (TokenizerTrait.eosTokenId tokenizer) := by
  obtain ⟨hi, -⟩ := hs.inv hA hR
  obtain ⟨hgen, hallows⟩ := hi.outcome hr hreport hid
  exact hallows.refines (hi.admits r hr).1 hstop hdecode hgen

/-- Two blocks are enough for one short prompt. -/
def smallConfig : EngineConfig := { maxNumBlocks := 2, memoryThreshold := .finite 1 }

/-- Answers `40` to the first three tokens and EOS to the first four. -/
def stopAtFour (fed : List TokenId) : TokenId := if fed.length = 4 then 2 else 40

def smallOps : List EngineOp :=
  [.submitRequest "a" { maxTokens := 3 }, .stepEvents, .stepEvents]

def smallRequest : Request := Request.new 1 [1, 69, 2] { maxTokens := 3 }

def smallReport : CompletedRequest where
  requestId := 1
  inputText := some "a"
  outputText := "D"
  outputTokens := [40, 2]
  success := true
  error := none
  finishReason := some .stop
  logprobs := none

def smallSession : Session (FunctionBackend stopAtFour) SimpleTokenizer SimpleDecoder :=
  (new smallConfig SimpleTokenizer.new ⟨fun _ => []⟩).run smallOps

theorem smallSession_reachable :
    smallSession.Reachable smallConfig SimpleTokenizer.new ⟨fun _ => []⟩ :=
  ⟨by decide +kernel, smallOps, rfl⟩

theorem refines_of_reachable_small :
    smallReport ∈ smallSession.reports ∧
      smallReport.Refines (generate stopAtFour (· == 2) 3 [1, 69, 2]) 2 := by
  have hr : smallRequest ∈ smallSession.admitted := by decide +kernel
  have hreport : smallReport ∈ smallSession.reports := by decide +kernel
  exact ⟨hreport, refines_of_reachable (FunctionBackend.answering stopAtFour) rfl
    (fun _ => ⟨_, rfl⟩) smallSession_reachable hr hreport rfl rfl⟩

end Session

end PagedServing
