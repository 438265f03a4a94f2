import PagedServing.Engine.Streaming
import PagedServing.Server.Disconnects
import PagedServing.Server.Handlers

/-! # What a client gets for its prompt

From the submission of a prompt to the answer of its handler: over a backend that computes a
function of what it has been fed, an answer depends on the prompt and the parameters alone,
whoever else is served and in whatever order things happen.
-/

namespace PagedServing

open Relation LabelledLog Autoregressive

/-! ## Successful reports -/

section Reference

variable {τ δ : Type} [IncrementalDecoder δ] [TokenizerTrait τ δ] {x : Setting τ} {r : Request}
  {out : List TokenId} {texts : List String} {report : CompletedRequest}
  {f : List TokenId → TokenId}

structure CompletedRequest.Answers (report : CompletedRequest) (x : Setting τ)
    (reference : List TokenId) : Prop where
  tokens : report.outputTokens = reference
  text : TokenizerTrait.tryDecode x.tokenizer reference = .ok report.outputText
  finishReason : report.finishReason =
    some (if reference.getLast? = some x.eosTokenId then .stop else .length)

/-- A successful request without stop strings has the reference output, however the texts of
other token lists may decode. -/
theorem Setting.Allows.answers (hr : x.Admits r) (hstop : r.params.stop = [])
    (hgen : x.Generates (fun fed t => t = f fed) r out)
    (h : x.Allows r out texts (.reported report : Place δ)) (hsuccess : report.success = true) :
    report.Answers x (x.reference f r) := by
  obtain ⟨req, decoder, before, hended, hcompleted, htext, rfl, -⟩ := h.of_success hsuccess
  cases hended with
  | failed reason hreq _ => simp [Request.fail] at hcompleted
  | @finished req hreq hne hfin _ =>
      have hout : req.outputTokens = out := hreq.outputTokens
      have heq : out = x.reference f r :=
        eq_generate hgen.answers (hgen.length_le hr) (hgen.dropLast_ne_eos hr) (hgen.ends hr hfin)
      obtain ⟨text, hdecode⟩ : ∃ text, TokenizerTrait.tryDecode x.tokenizer out = .ok text :=
        ⟨_, hout ▸ htext⟩
      rw [← heq]
      refine ⟨hout, hout ▸ htext, ?_⟩
      by_cases hlast : out.getLast? = some x.eosTokenId <;>
        simp [Request.report, hout, hdecode, hreq.stopSequenceHit, hlast]
  | finishedHit _ _ _ hhit => simp [Request.stopKeep_of_no_stop hstop] at hhit
  | stopped _ _ _ hhit => simp [Request.stopKeep_of_no_stop hstop] at hhit

end Reference

/-! ## From a submission to a request -/

namespace Server

variable {σ τ δ : Type} {v v' : Server σ τ δ} {s s' : Session σ τ δ} {client : ClientId}
  {prompt : String} {params : GenerationParams}

section Entered

variable [TokenizerTrait τ δ]

/-- The submission waits in the queue, has been refused, or is a request of the engine. -/
inductive Entered (tokenizer : τ) (client : ClientId) (prompt : String) (params : GenerationParams)
    (v : Server σ τ δ) (s : Session σ τ δ) : Prop
  | queued (hmem : ⟨prompt, params, client⟩ ∈ v.submissions)
  | refused {c : Client} {err : EngineError} (hc : v.clients[client]? = some c)
      (hreplies : c.replies = [.error err])
  | admitted {c : Client} {r : Request} (hc : v.clients[client]? = some c)
      (hreplies : c.replies = [.ok ⟨r.id, r.inputTokens.length⟩]) (hr : r ∈ s.admitted)
      (hparams : r.params = params)
      (hencode : TokenizerTrait.tryEncode tokenizer prompt = .ok r.inputTokens)

variable {tokenizer : τ}

theorem Entered.later (h : Entered tokenizer client prompt params v s)
    (hqueue : ⟨prompt, params, client⟩ ∈ v.submissions →
      ⟨prompt, params, client⟩ ∈ v'.submissions)
    (hadmitted : s.admitted ⊆ s'.admitted)
    (hlater : ∀ c, v.clients[client]? = some c →
      ∃ c', v'.clients[client]? = some c' ∧ Later c c') :
    Entered tokenizer client prompt params v' s' := by
  cases h with
  | queued hmem => exact .queued (hqueue hmem)
  | refused hc hreplies =>
      obtain ⟨c', hc', hkept⟩ := hlater _ hc
      refine .refused hc' ((hkept.replies ?_).trans hreplies)
      rw [hreplies]
      exact List.cons_ne_nil _ _
  | admitted hc hreplies hr hparams hencode =>
      obtain ⟨c', hc', hkept⟩ := hlater _ hc
      refine .admitted hc' ((hkept.replies ?_).trans hreplies) (hadmitted hr) hparams hencode
      rw [hreplies]
      exact List.cons_ne_nil _ _

end Entered

variable [GPUExecutorTrait σ] [IncrementalDecoder δ] [TokenizerTrait τ δ] {x : Setting τ}

theorem entered_accept (hd : v.Delivers s) (hf : v.Follows x s) {rest : List Submission}
    (hsub : v.submissions = ⟨prompt, params, client⟩ :: rest) (phase : Phase) :
    Entered x.tokenizer client prompt params
      { { v with submissions := rest }.admitSubmission ⟨prompt, params, client⟩ with
        phase := phase } (s.submit prompt params) := by
  have hlt : client < v.clients.length := hd.known _ (hsub ▸ List.mem_cons_self)
  have hc := List.getElem?_eq_getElem hlt
  have hnone := (hd.head_queued hsub hc).1
  have hreply (result : Except EngineError Admission) :
      ∃ c, (v.reply client result).clients[client]? = some c ∧ c.replies = [result] := by
    refine ⟨_, withClient_eq_some.2 ⟨_, hc, rfl⟩, ?_⟩
    rw [if_pos rfl, hnone, List.nil_append]
  have htokenizer : s.engine.tokenizer = x.tokenizer := congrArg (·.tokenizer) hf.steady.inv.setting
  rcases s.engine.submitRequest_cases prompt params with
    ⟨err, sch, hrun, -⟩ | ⟨inputTokens, hencode, -, -, hrun⟩
  · obtain ⟨c, hc, hreplies⟩ := hreply (.error err)
    rw [← hf.engine] at hrun
    rw [admitSubmission, hrun]
    exact .refused hc hreplies
  · obtain ⟨c, hc, hreplies⟩ := hreply (.ok ⟨v.engine.nextRequestId, inputTokens.length⟩)
    replace hreplies : c.replies = [.ok ⟨s.engine.nextRequestId, inputTokens.length⟩] := by
      rw [hreplies, hf.engine]
    have hadmitted : (s.submit prompt params).admitted =
        s.admitted ++ [Request.new s.engine.nextRequestId inputTokens params] := by
      rw [Session.submit, hrun, hencode]
    rw [← hf.engine] at hrun
    rw [admitSubmission, hrun]
    rw [htokenizer] at hencode
    exact .admitted (r := Request.new s.engine.nextRequestId inputTokens params) hc hreplies
      (hadmitted ▸ List.mem_append_right _ List.mem_cons_self) rfl hencode

theorem Entered.loop (h : Entered x.tokenizer client prompt params v s) (hd : v.Delivers s)
    (hf : v.Follows x s) (hstep : v.LoopStep s v' s') :
    Entered x.tokenizer client prompt params v' s' := by
  have hlater := fun c (hc : v.clients[client]? = some c) => hstep.later hd hc
  cases hstep with
  | @accept submission rest hphase hsub =>
      by_cases hself : submission = ⟨prompt, params, client⟩
      · subst hself
        exact entered_accept hd hf hsub .drain
      · refine h.later (fun hmem => ?_) (s.prefix_apply (.submitRequest _ _)).1.subset hlater
        rw [hsub] at hmem
        change _ ∈ (admitSubmission _ submission).submissions
        rw [submissions_admitSubmission]
        exact (List.mem_cons.1 hmem).resolve_left (Ne.symm hself)
  | step => exact h.later (fun hmem => hmem) (s.prefix_apply .stepEvents).1.subset hlater
  | cancel => exact h.later (fun hmem => hmem) (s.prefix_apply (.cancelRequest _)).1.subset hlater
  | gaveUp _ _ hs' =>
      refine h.later (fun hmem => hmem) ?_ hlater
      rw [hs']
      exact (s.prefix_apply (.failPendingRequests InferenceEngine.stallReason)).1.subset
  | send =>
      refine h.later (fun hmem => ?_) (List.Subset.refl _) hlater
      rwa [submissions_sendChunk]
  | @dispatch locals completed =>
      refine h.later (fun hmem => ?_) (List.Subset.refl _) hlater
      exact (submissions_dispatchCompleted v completed).symm ▸ hmem
  | @route completed =>
      refine h.later (fun hmem => ?_) (List.Subset.refl _) hlater
      exact (submissions_dispatchCompleted v completed).symm ▸ hmem
  | _ => exact h.later (fun hmem => hmem) (List.Subset.refl _) hlater

theorem LoopStep.steady {answer : List TokenId → TokenId → Prop} {R : σ → Fed → Prop}
    (hstep : v.LoopStep s v' s') (hA : Answering σ answer R) (h : s.Steady answer R x) :
    s'.Steady answer R x := by
  cases hstep with
  | accept => exact h.apply hA (.submitRequest _ _)
  | step => exact h.apply hA .stepEvents
  | cancel => exact h.apply hA (.cancelRequest _)
  | gaveUp _ _ hs' => exact hs' ▸ (h.apply hA (.failPendingRequests _)).collect hA
  | _ => exact h

/-! ## From a request to an answer -/

/-- What the loop keeps over a backend that answers in this way. -/
structure Serves (x : Setting τ) (answer : List TokenId → TokenId → Prop) (R : σ → Fed → Prop)
    (v : Server σ τ δ) (s : Session σ τ δ) : Prop where
  tends : v.Tends s
  steady : s.Steady answer R x

variable {answer : List TokenId → TokenId → Prop} {R : σ → Fed → Prop}

theorem Serves.loop (h : v.Serves x answer R s) (hA : Answering σ answer R) (hf : v.Follows x s)
    (hstep : v.LoopStep s v' s') : v'.Serves x answer R s' :=
  ⟨h.tends.loop hf hstep, hstep.steady hA h.steady⟩

theorem Reachable.serves {config : EngineConfig} {tokenizer : τ} {gpuExecutor : σ} {fed : Fed}
    (h : Reachable config tokenizer gpuExecutor v) (hA : Answering σ answer R)
    (hR : R gpuExecutor fed) : ∃ s, v.Follows (Session.settingOf config tokenizer) s ∧
      v.Serves (Session.settingOf config tokenizer) answer R s := by
  have hvalid : config.validate = .ok () := by
    induction h with
    | start hvalid => exact hvalid
    | step _ _ ih => exact ih
  have hnew : (Session.new config tokenizer gpuExecutor : Session σ τ δ).Reachable config
      tokenizer gpuExecutor := ⟨hvalid, [], rfl⟩
  refine h.follows (P := fun v s => v.Serves (Session.settingOf config tokenizer) answer R s)
    ⟨⟨paced_start _, delivers_start _ rfl, ?_⟩, ?_⟩
    (fun hf hs hstep => hs.loop hA hf hstep)
    (fun hs hstep => ⟨hs.tends.clientStep hstep, hs.steady⟩)
    fun prompt params hopen hs => ⟨hs.tends.submit hopen prompt params, hs.steady⟩
  · rintro client id ⟨c, n, hc, -⟩
    cases hc
  · exact ⟨Session.inv_new hvalid tokenizer fed hR, hnew.steady.settled, hnew.steady.roomy⟩

end Server

def Client.streamed (c : Client) : List String :=
  (c.events.content.filterMap RequestEvent.asChunk).map Prod.fst

/-- A result that tells of the reference output for a prompt. -/
structure GenerationResult.Answers {τ δ : Type} [TokenizerTrait τ δ] (result : GenerationResult)
    (tokenizer : τ) (inputTokens reference : List TokenId) : Prop where
  promptTokens : result.promptTokens = inputTokens.length
  completionTokens : result.completionTokens = reference.length
  text : TokenizerTrait.tryDecode tokenizer reference = .ok result.text
  finishReason : result.finishReason =
    (if reference.getLast? = some (TokenizerTrait.eosTokenId tokenizer) then FinishReason.stop
      else .length).asStr

namespace Server

variable {σ τ δ : Type} [GPUExecutorTrait σ] [IncrementalDecoder δ] [TokenizerTrait τ δ]
  {v v' : Server σ τ δ} {client : ClientId} {prompt : String} {params : GenerationParams}

/-- A prompt in the queue of any server, once the loop has nothing more to do: its client has
been told of an error, or has all of the generation that its prompt and its parameters determine,
as one result and as a stream. -/
theorem serves_of_run {f : List TokenId → TokenId} {R : σ → Fed → Prop} {config : EngineConfig}
    {tokenizer : τ} {gpuExecutor : σ} {fed : Fed} (hA : Answering σ (fun fed t => t = f fed) R)
    (hR : R gpuExecutor fed) (hpieces : DecodesInPieces tokenizer)
    (h : Reachable config tokenizer gpuExecutor v)
    (hqueued : ⟨prompt, params, client⟩ ∈ v.submissions) (hstop : params.stop = [])
    (hsteps : ReflTransGen Step v v') (hrest : v'.loopStep = none) :
    ∃ c, v'.clients[client]? = some c ∧ ((∃ err, c.replies = [.error err]) ∨
      ∃ a inputTokens, c.replies = [.ok a] ∧
        TokenizerTrait.tryEncode tokenizer prompt = .ok inputTokens ∧
        (c.events.connected = true →
          ∀ result, AppState.generate a c.events.content = .ok result →
            String.join c.streamed = result.text ∧
            result.Answers tokenizer inputTokens (generate f
              (· == TokenizerTrait.eosTokenId tokenizer) params.maxTokens.toNat inputTokens))) := by
  obtain ⟨s, hf, hs⟩ := h.serves hA hR
  obtain ⟨s', hf', hs', hentered⟩ := hf.run
    (P := fun v s => v.Serves (Session.settingOf config tokenizer) (fun fed t => t = f fed) R s ∧
      Entered tokenizer client prompt params v s)
    ⟨hs, .queued hqueued⟩ hsteps
    (fun hf ⟨hs, he⟩ hstep => ⟨hs.loop hA hf hstep, he.loop hs.tends.delivers hf hstep⟩)
    (fun ⟨hs, he⟩ hstep => ⟨⟨hs.tends.clientStep hstep, hs.steady⟩,
      he.later (fun hmem => by cases hstep <;> exact hmem) (List.Subset.refl _)
        fun _ hc => hstep.later hc⟩)
    fun prompt params hopen ⟨hs, he⟩ => ⟨⟨hs.tends.submit hopen prompt params, hs.steady⟩,
      he.later (fun hmem => List.mem_append_left _ hmem) (List.Subset.refl _)
        fun c hc => ⟨c, later_submit hc prompt params, fun _ => rfl, fun h => h⟩⟩
  cases hentered with
  | queued hmem =>
      have hnone : v'.submissions = [] :=
        (loopStep_eq_none hrest).elim (·.2) fun hphase => (hs'.tends.paced.returned hphase).1
      rw [hnone] at hmem
      cases hmem
  | refused hc hreplies => exact ⟨_, hc, .inl ⟨_, hreplies⟩⟩
  | @admitted c r hc hreplies hr hparams hencode =>
      refine ⟨c, hc, .inr ⟨_, _, hreplies, hencode, fun hopen result hresult => ?_⟩⟩
      obtain ⟨completed, hreport, hid, hcontent⟩ :=
        hs'.tends.delivers.candidate hf' hs'.tends.paced hrest hc hreplies hopen
      rw [hcontent, Candidate.events, AppState.generate_chunkEvents] at hresult
      replace hresult : generationResult r.inputTokens.length completed = .ok result := hresult
      have hi := hs'.steady.inv
      obtain ⟨hgen, hallows⟩ := hi.outcome hr hreport hid
      obtain ⟨hsuccess, htext, -⟩ := generationResult_eq_ok hresult
      subst hparams
      have hanswers := hallows.answers (hi.admits r hr).1 hstop hgen hsuccess
      have hjoin := hallows.join_texts hstop hpieces hsuccess
      rw [generationResult, if_pos hsuccess] at hresult
      obtain rfl := Except.ok.inj hresult
      refine ⟨?_, rfl, congrArg List.length hanswers.tokens, hanswers.text, ?_⟩
      · rw [Client.streamed, hcontent, Candidate.events_chunks]
        exact hjoin
      · dsimp only
        rw [hanswers.finishReason]
        rfl

/-- The first of two prompts gets its two tokens. -/
theorem serves_of_run_small :
    ∃ v c result, loopSteps 19 smallServer = some v ∧ v.clients[0]? = some c ∧
      AppState.generate ⟨1, 3⟩ c.events.content = .ok result ∧
      String.join c.streamed = result.text ∧
      result.Answers SimpleTokenizer.new [1, 69, 2]
        (generate Session.stopAtFour (· == 2) 2 [1, 69, 2]) := by
  have hvalid : Session.smallConfig.validate = .ok () := by decide +kernel
  have hrun : (loopSteps 19 smallServer).map (fun v => (v.loopStep.isNone, v.clients.map fun c =>
      (c.replies, c.events.connected,
        (AppState.generate ⟨1, 3⟩ c.events.content).toOption.isSome))) =
      some (true, [([.ok ⟨1, 3⟩], true, true), ([.error .emptyInput], true, false)]) := by
    decide +kernel
  obtain ⟨v, hv, hstate⟩ := Option.map_eq_some_iff.1 hrun
  obtain ⟨hrest, hclients⟩ := Prod.mk.inj hstate
  obtain ⟨c, others, hlist, hc, -⟩ := List.map_eq_cons_iff.1 hclients
  obtain ⟨hreplies, hc⟩ := Prod.mk.inj hc
  obtain ⟨hopen, hsome⟩ := Prod.mk.inj hc
  have hreachable : Reachable Session.smallConfig SimpleTokenizer.new
      (⟨fun _ => []⟩ : FunctionBackend Session.stopAtFour) smallServer :=
    ((Reachable.start hvalid).step (.submit "a" { maxTokens := 2 } rfl (by decide))).step
      (.submit "" { maxTokens := 2 } rfl (by decide))
  have hqueued : ⟨"a", { maxTokens := 2 }, 0⟩ ∈ smallServer.submissions :=
    List.mem_append_left _ List.mem_cons_self
  obtain ⟨c', hc', hanswer⟩ := serves_of_run (FunctionBackend.answering Session.stopAtFour) rfl
    (SimpleTokenizer.decodesInPieces _) hreachable hqueued rfl (run_of_loopSteps hv)
    (Option.isNone_iff_eq_none.1 hrest)
  obtain rfl : c = c' := Option.some.inj (by rw [← hc', hlist]; rfl)
  rcases hanswer with ⟨err, herr⟩ | ⟨a, inputTokens, hadmitted, hencode, hall⟩
  · rw [hreplies] at herr
    cases herr
  · rw [hreplies] at hadmitted
    cases hadmitted
    have htokens : inputTokens = [1, 69, 2] :=
      (Except.ok.inj (hencode.symm.trans (by decide +kernel)))
    subst htokens
    cases hresult : AppState.generate ⟨1, 3⟩ c.events.content with
    | error err =>
        rw [hresult] at hsome
        cases hsome
    | ok result => exact ⟨v, c, result, hv, hc', hresult, hall hopen result hresult⟩

end Server

end PagedServing
