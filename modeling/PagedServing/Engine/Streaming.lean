import PagedServing.Engine.Refinement

/-! # Streamed text and reported text

The chunks of a request are what its decoder returned for its tokens, with the tail of
that decoder. The two decoders return in this way what decoding at once returns.
-/

namespace PagedServing

open Scheduler Relation

/-! ## Decoders of the two tokenizers -/

/-- The character that a token stands for in a text. -/
def SimpleTokenizer.visible (t : SimpleTokenizer) (token : TokenId) : Option Char :=
  if isSkipped t.addSpecialTokens t.specialTokens token then none else t.decodeToken token

theorem SimpleTokenizer.tryDecode_eq (t : SimpleTokenizer) (tokens : List TokenId) :
    TokenizerTrait.tryDecode t tokens = .ok (String.ofList (tokens.filterMap t.visible)) := rfl

theorem SimpleTokenizer.push_createDecoder (t : SimpleTokenizer) (token : TokenId) :
    IncrementalDecoder.push (TokenizerTrait.createDecoder t : SimpleDecoder) token =
      (.ok ((t.visible token).map fun c => String.ofList [c]), TokenizerTrait.createDecoder t) := by
  simp only [IncrementalDecoder.push, TokenizerTrait.createDecoder, visible, decodeToken]
  split <;> rfl

/-- The character decoder returns every visible character at once. -/
theorem SimpleTokenizer.pushAll_createDecoder (t : SimpleTokenizer) (out : List TokenId) :
    pushAll (TokenizerTrait.createDecoder t : SimpleDecoder) out =
      ((out.filterMap t.visible).map fun c => String.ofList [c],
        TokenizerTrait.createDecoder t) := by
  induction out using List.reverseRecOn with
  | nil => rfl
  | append_singleton out token ih =>
    rw [pushAll_concat, ih, t.push_createDecoder, List.filterMap_append, List.map_append]
    cases h : t.visible token with
    | none => simp [pushedText, h]
    | some c => simp [pushedText, h]

/-- The buffering decoder returns nothing before its end. -/
theorem HuggingFaceTokenizer.pushAll_createDecoder (t : HuggingFaceTokenizer)
    (out : List TokenId) :
    pushAll (TokenizerTrait.createDecoder t : BufferedDecoder) out = ([], ⟨t.inner, out⟩) := by
  induction out using List.reverseRecOn with
  | nil => rfl
  | append_singleton out token ih =>
    rw [pushAll_concat, ih]
    simp [IncrementalDecoder.push, pushedText]

theorem join_singletons (chars : List Char) :
    String.join (chars.map fun c => String.ofList [c]) = String.ofList chars := by
  rw [← String.toList_inj, String.toList_join, List.flatMap_map]
  simp

section Outputs

variable {τ δ : Type} [IncrementalDecoder δ] [TokenizerTrait τ δ] {x : Setting τ} {r : Request}
  {out : List TokenId} {texts : List String} {report : CompletedRequest}
  {answer : List TokenId → TokenId → Prop}

/-- A decoder of this tokenizer returns, piece by piece, what decoding at once returns. -/
def DecodesInPieces (tokenizer : τ) : Prop :=
  ∀ out : List TokenId, out ≠ [] → ∀ text, TokenizerTrait.tryDecode tokenizer out = .ok text →
    String.join ((pushAll (TokenizerTrait.createDecoder tokenizer : δ) out).1 ++
      tailText (some (pushAll (TokenizerTrait.createDecoder tokenizer : δ) out).2)) = text

theorem SimpleTokenizer.decodesInPieces (t : SimpleTokenizer) : DecodesInPieces t := by
  intro out _ text htext
  rw [t.tryDecode_eq, Except.ok.injEq] at htext
  have htail : tailText (some (TokenizerTrait.createDecoder t : SimpleDecoder)) = [] := rfl
  rw [t.pushAll_createDecoder, ← htext, htail, List.append_nil, join_singletons]

theorem HuggingFaceTokenizer.decodesInPieces (t : HuggingFaceTokenizer) : DecodesInPieces t := by
  intro out hne text htext
  rw [t.pushAll_createDecoder]
  have hdecode : t.inner.decode out = .ok text := htext
  by_cases hempty : text = "" <;>
    simp [tailText, IncrementalDecoder.finish, hne, hdecode, Except.map, pushedText, hempty]

/-! ## Successful requests -/

/-- How a request can have ended when its report says success. -/
theorem Setting.Allows.of_success (h : x.Allows r out texts (.reported report : Place δ))
    (hsuccess : report.success = true) :
    ∃ req decoder before, x.Ended r out req decoder before ∧ req.state = .completed ∧
      TokenizerTrait.tryDecode x.tokenizer req.outputTokens = .ok report.outputText ∧
      report = req.report x.tokenizer x.eosTokenId ∧ texts = before ++ tailText decoder := by
  obtain ⟨req, decoder, before, hended, rfl, rfl⟩ := h
  have hstate : req.state = .completed ∧
      ∃ text, TokenizerTrait.tryDecode x.tokenizer req.outputTokens = .ok text := by
    rw [Request.report] at hsuccess
    dsimp only at hsuccess
    split at hsuccess
    next hcompleted hok => exact ⟨hcompleted, _, hok⟩
    next => simp at hsuccess
  obtain ⟨hcompleted, text, htext⟩ := hstate
  refine ⟨req, decoder, before, hended, hcompleted, ?_, rfl, ?_⟩
  · simp [Request.report, htext, Except.toOption]
  · rw [reportTail, if_pos hsuccess]

/-- Without stop strings all of the output has been streamed. -/
theorem Setting.Allows.join_texts (hstop : r.params.stop = [])
    (hpieces : DecodesInPieces x.tokenizer)
    (h : x.Allows r out texts (.reported report : Place δ)) (hsuccess : report.success = true) :
    String.join texts = report.outputText := by
  obtain ⟨req, decoder, before, hended, hcompleted, htext, -, rfl⟩ := h.of_success hsuccess
  cases hended with
  | failed reason hreq _ => simp [Request.fail] at hcompleted
  | finished hreq hne _ _ =>
      rw [hreq.outputTokens] at htext
      exact hpieces out hne _ htext
  | finishedHit _ _ _ hhit => simp [Request.stopKeep_of_no_stop hstop] at hhit
  | stopped _ _ _ hhit => simp [Request.stopKeep_of_no_stop hstop] at hhit

end Outputs

/-! ## Runs -/

namespace Session

variable {σ τ δ : Type} [GPUExecutorTrait σ] [IncrementalDecoder δ] [TokenizerTrait τ δ]

/-- Every successful request without stop strings has had its whole output streamed, and
whatever happens later nothing more is streamed for it. -/
def StreamsOutputs (s : Session σ τ δ) : Prop :=
  ∀ r ∈ s.admitted, r.params.stop = [] → ∀ report ∈ s.reports, report.requestId = r.id →
    report.success = true → String.join (s.streamed r.id) = report.outputText ∧
      ∀ more, (s.run more).streamed r.id = s.streamed r.id

theorem streamsOutputs_of_pieces {config : EngineConfig} {tokenizer : τ} {gpuExecutor : σ}
    {s : Session σ τ δ} (hpieces : DecodesInPieces tokenizer)
    (hs : s.Reachable config tokenizer gpuExecutor) : s.StreamsOutputs := by
  intro r hr hstop report hreport hid hsuccess
  obtain ⟨hi, hsettled⟩ := hs.inv_any
  exact ⟨(hi.outcome hr hreport hid).2.join_texts hstop hpieces hsuccess,
    texts_run (Answering.any σ) hi hsettled hr hreport hid⟩

/-- The chunks of a request add up to its reported output, with the character decoder
under any special tokens and with the buffering decoder. -/
theorem streamsOutputs_of_reachable {config : EngineConfig} {gpuExecutor : σ} :
    (∀ (tokenizer : SimpleTokenizer) (s : Session σ SimpleTokenizer SimpleDecoder),
        s.Reachable config tokenizer gpuExecutor → s.StreamsOutputs) ∧
      ∀ (tokenizer : HuggingFaceTokenizer) (s : Session σ HuggingFaceTokenizer BufferedDecoder),
        s.Reachable config tokenizer gpuExecutor → s.StreamsOutputs :=
  ⟨fun tokenizer _ hs => streamsOutputs_of_pieces tokenizer.decodesInPieces hs,
    fun tokenizer _ hs => streamsOutputs_of_pieces tokenizer.decodesInPieces hs⟩

theorem streamsOutputs_of_reachable_small : String.join (smallSession.streamed 1) = "D" := by
  have hr : smallRequest ∈ smallSession.admitted := by decide +kernel
  have hreport : smallReport ∈ smallSession.reports := by decide +kernel
  exact (streamsOutputs_of_reachable.1 SimpleTokenizer.new smallSession smallSession_reachable
    smallRequest hr rfl smallReport hreport rfl rfl).1

end Session

end PagedServing
