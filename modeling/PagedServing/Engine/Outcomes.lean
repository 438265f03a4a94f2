import PagedServing.Engine.Accounting
import PagedServing.Engine.Retention

/-! # What a report tells

Whatever the backend answers, each of the two finish reasons that a report can name is true of
the tokens that were generated for its request.
-/

namespace PagedServing

section Reports

variable {τ δ : Type} [TokenizerTrait τ δ]

/-- What `report` says of the request `r`, for which the tokens `out` were generated. -/
structure Setting.Truthful (x : Setting τ) (r : Request) (out : List TokenId)
    (report : CompletedRequest) : Prop where
  within : out.length ≤ r.params.maxTokens.toNat
  eosLast : ∀ token ∈ out.dropLast, (token == x.eosTokenId) = false
  kept : report.outputTokens <+: out
  conclusive : report.Conclusive
  length : report.finishReason = some .length →
    report.outputTokens = out ∧ out.length = r.params.maxTokens.toNat ∧
      out.getLast? ≠ some x.eosTokenId
  /-- The last token was the end of the text, or a stop string was hit and the tokens from it
  on are cut off. -/
  stop : report.finishReason = some .stop →
    report.outputTokens = out ∧ out.getLast? = some x.eosTokenId ∨
      ∃ keep, (r.withOutput out).stopKeep x.tokenizer = some keep ∧
        report.outputTokens = out.take keep ∧ x.finishes (r.withOutput out) = false

variable (tokenizer : τ) (eosTokenId : TokenId) (req : Request)

theorem Request.report_finishReason {reason : FinishReason}
    (h : (req.report tokenizer eosTokenId).finishReason = some reason) :
    req.state = .completed ∧ (reason = .stop ↔
      req.stopSequenceHit = true ∨ req.outputTokens.getLast? = some eosTokenId) := by
  cases hstate : req.state with
  | completed =>
      refine ⟨rfl, ?_⟩
      cases hdecode : TokenizerTrait.tryDecode tokenizer req.outputTokens with
      | error message => simp [Request.report, hstate, hdecode] at h
      | ok text =>
          simp only [Request.report, hstate, hdecode, if_true] at h
          split at h
          next hcut =>
            obtain rfl := Option.some.inj h
            simpa using hcut
          next hcut =>
            obtain rfl := Option.some.inj h
            simpa using hcut
  | _ => simp [Request.report, hstate] at h

end Reports

section Outcomes

variable {τ δ : Type} [TokenizerTrait τ δ] {x : Setting τ} {r req : Request}
  {out : List TokenId} {answer : List TokenId → TokenId → Prop} {report : CompletedRequest}

theorem Setting.Generates.truthful_whole (hgen : x.Generates answer r out) (hr : x.Admits r)
    (hreport : report = req.report x.tokenizer x.eosTokenId) (hout : req.outputTokens = out)
    (hhit : req.stopSequenceHit = false) (hended : req.state.IsTerminal)
    (hfin : req.state = .completed → x.finishes (r.withOutput out) = true) :
    x.Truthful r out report := by
  have hwithin := hgen.length_le hr
  have hconclusive := Request.report_conclusive hended x.tokenizer x.eosTokenId
  subst hreport
  have hkept : (req.report x.tokenizer x.eosTokenId).outputTokens = out := hout
  refine ⟨hwithin, hgen.dropLast_ne_eos hr, ?_, hconclusive, ?_, ?_⟩
  · rw [hkept]
  · intro hlength
    obtain ⟨hcompleted, hstop⟩ := req.report_finishReason _ _ hlength
    have hlast : out.getLast? ≠ some x.eosTokenId := fun heq => by
      simpa using hstop.2 (.inr (hout ▸ heq))
    have hlimit := ((finishes_iff hr).1 (hfin hcompleted)).resolve_right hlast
    exact ⟨hkept, le_antisymm hwithin hlimit, hlast⟩
  · intro hreason
    obtain ⟨-, hstop⟩ := req.report_finishReason _ _ hreason
    rcases hstop.1 rfl with hflag | hlast
    · rw [hhit] at hflag
      cases hflag
    · exact .inl ⟨hkept, hout ▸ hlast⟩

theorem Setting.Generates.truthful_cut {keep : Nat} (hgen : x.Generates answer r out)
    (hr : x.Admits r) (hreport : report = req.report x.tokenizer x.eosTokenId)
    (hout : req.outputTokens = out.take keep) (hhit : req.stopSequenceHit = true)
    (hstate : req.state = .completed) (hfin : x.finishes (r.withOutput out) = false)
    (hstop : (r.withOutput out).stopKeep x.tokenizer = some keep) : x.Truthful r out report := by
  have hconclusive := Request.report_conclusive (hstate ▸ trivial : req.state.IsTerminal)
    x.tokenizer x.eosTokenId
  subst hreport
  have hkept : (req.report x.tokenizer x.eosTokenId).outputTokens = out.take keep := hout
  refine ⟨hgen.length_le hr, hgen.dropLast_ne_eos hr, ?_, hconclusive, ?_, ?_⟩
  · rw [hkept]
    exact List.take_prefix keep out
  · intro hlength
    obtain ⟨-, hiff⟩ := req.report_finishReason _ _ hlength
    cases hiff.2 (.inl hhit)
  · exact fun _ => .inr ⟨keep, hstop, hkept, hfin⟩

theorem Setting.Allows.truthful [IncrementalDecoder δ] {texts : List String}
    (h : x.Allows r out texts (.reported report : Place δ)) (hgen : x.Generates answer r out)
    (hr : x.Admits r) : x.Truthful r out report := by
  obtain ⟨req, decoder, before, hended, hreport, -⟩ := h
  cases hended with
  | failed reason hreq _ =>
      exact hgen.truthful_whole hr hreport hreq.outputTokens hreq.stopSequenceHit trivial
        fun hstate => by cases hstate
  | finished hreq _ hfin _ =>
      exact hgen.truthful_whole hr hreport hreq.outputTokens hreq.stopSequenceHit trivial
        fun _ => hfin
  | finishedHit hreq _ hfin _ =>
      exact hgen.truthful_whole hr hreport hreq.outputTokens hreq.stopSequenceHit trivial
        fun _ => hfin
  | @stopped req keep hreq _ hfin hstop =>
      exact hgen.truthful_cut hr hreport (congrArg (·.take keep) hreq.outputTokens) rfl rfl hfin
        hstop

end Outcomes

namespace Session

variable {σ τ δ : Type} [GPUExecutorTrait σ] [IncrementalDecoder δ] [TokenizerTrait τ δ]
  {s : Session σ τ δ}

theorem truthful_of_reachable {config : EngineConfig} {tokenizer : τ} {gpuExecutor : σ}
    (h : s.Reachable config tokenizer gpuExecutor) {r : Request} (hr : r ∈ s.admitted)
    {report : CompletedRequest} (hreport : report ∈ s.reports) (hid : report.requestId = r.id) :
    (settingOf config tokenizer).Truthful r (s.generated r.id) report := by
  have hi := h.inv_any.1
  obtain ⟨hgen, hallows⟩ := hi.outcome hr hreport hid
  exact hallows.truthful hgen (hi.admits r hr).1

/-- The request that is cut at a stop string keeps one token of two. -/
theorem truthful_of_reachable_cut :
    cutReport.finishReason = some .stop ∧ (cutSession.generated 1) = [97, 98] ∧
      (settingOf smallConfig letterTokenizer).Truthful cutRequest (cutSession.generated 1)
        cutReport :=
  ⟨rfl, by decide +kernel,
    truthful_of_reachable cutSession_reachable (by decide +kernel) (by decide +kernel) rfl⟩

end Session

end PagedServing
