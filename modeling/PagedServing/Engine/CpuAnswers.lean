import PagedServing.Engine.Integrity
import PagedServing.Engine.Outcomes
import PagedServing.Library.LabelledLog

/-! # What is generated over the CPU executor

As long as the steps of a run are clear, every token generated for a request is the one that the
contiguous model of the executor chooses after its prompt and the tokens before it, whatever else
is in the batches and wherever the rows are stored.
-/

namespace PagedServing

open Autoregressive LabelledLog

/-! ## Answers of the reference executor -/

/-- The token chosen after these tokens; `none` when a softmax on the way has no normaliser. -/
def CpuModel.nextToken {V : Type} (m : CpuModel V) (vocabSize : Nat) (tokens : List TokenId) :
    Option TokenId :=
  (m.reference vocabSize tokens).map fun state => (m.sample state.1).1

namespace ReferenceExecutor

variable {V : Type} {r r' : ReferenceExecutor V} {entries : List BatchEntry}

theorem executeEntries_rows {rows : List (TokenId × TokenLogprobs)}
    (hnodup : (entries.map (·.seqId)).Nodup) (h : executeEntries entries r = (.ok rows, r')) :
    ∀ row ∈ (entries.map (·.seqId)).zip (rows.map (·.1)), ∃ entry ∈ entries,
      entry.seqId = row.1 ∧
        r.model.nextToken r.vocabSize (r.fed row.1 ++ entry.tokens) = some row.2 := by
  induction entries generalizing r rows with
  | nil => exact fun row hrow => absurd hrow List.not_mem_nil
  | cons entry rest ih =>
      obtain ⟨hfirst, hrest⟩ := List.nodup_cons.1 hnodup
      rw [executeEntries] at h
      cases href : r.model.reference r.vocabSize (r.fed entry.seqId ++ entry.tokens) with
      | none => simp [href] at h
      | some state =>
          rcases htail : executeEntries rest (r.feed entry) with ⟨reply, r''⟩
          cases reply with
          | error e => simp [href, htail] at h
          | ok tail =>
              simp only [href, htail, Prod.mk.injEq, Except.ok.injEq] at h
              obtain ⟨rfl, rfl⟩ := h
              intro row hrow
              rw [List.map_cons, List.map_cons, List.zip_cons_cons, List.mem_cons] at hrow
              rcases hrow with rfl | hrow
              · refine ⟨entry, List.mem_cons_self, rfl, ?_⟩
                rw [CpuModel.nextToken, href]
                rfl
              · obtain ⟨later, hlater, hid, hnext⟩ := ih hrest htail row hrow
                have hne : row.1 ≠ entry.seqId := fun heq =>
                  hfirst (List.mem_map.2 ⟨later, hlater, hid.trans heq⟩)
                refine ⟨later, List.mem_cons_of_mem _ hlater, hid, ?_⟩
                rw [← hnext, feed]
                exact congrArg (r.model.nextToken r.vocabSize <| · ++ later.tokens)
                  (Function.update_of_ne hne ..).symm

/-- The model of `r₀`, and the tokens that the caller has fed. -/
structure Tracks (r₀ r : ReferenceExecutor V) (c : Caller) : Prop where
  model : r.model = r₀.model
  vocabSize : r.vocabSize = r₀.vocabSize
  fed : r.fed = c.fed

variable {r₀ : ReferenceExecutor V} {c : Caller}

theorem Tracks.feed (h : r₀.Tracks r c) (entry : BatchEntry) :
    r₀.Tracks (r.feed entry) (c.feed entry) :=
  ⟨h.model, h.vocabSize, by rw [ReferenceExecutor.feed, Caller.feed, h.fed]⟩

theorem Tracks.executeEntries {rows : List (TokenId × TokenLogprobs)} (h : r₀.Tracks r c)
    (hrun : executeEntries entries r = (.ok rows, r')) : r₀.Tracks r' (c.feedAll entries) := by
  induction entries generalizing r rows c with
  | nil =>
      cases hrun
      exact h
  | cons entry rest ih =>
      rw [ReferenceExecutor.executeEntries] at hrun
      cases href : r.model.reference r.vocabSize (r.fed entry.seqId ++ entry.tokens) with
      | none => simp [href] at hrun
      | some state =>
          rcases htail : ReferenceExecutor.executeEntries rest (r.feed entry) with ⟨reply, r''⟩
          cases reply with
          | error e => simp [href, htail] at hrun
          | ok tail =>
              simp only [href, htail, Prod.mk.injEq] at hrun
              obtain ⟨-, rfl⟩ := hrun
              exact ih (h.feed entry) htail

theorem execute_cases (r : ReferenceExecutor V) (batch : ExecutionBatch) :
    (∃ e, r.execute batch = (.error e, r)) ∨
      (batch.isEmpty = true ∧ r.execute batch = (.ok {}, r)) ∨
      ∃ rows r', executeEntries batch.entries r = (.ok rows, r') ∧
        r.execute batch =
          (.ok ⟨rows.map (·.1), batch.seqIds, rows.map fun row => some row.2⟩, r') := by
  rw [execute]
  split
  next hempty => exact .inr (.inl ⟨hempty, rfl⟩)
  next =>
    split
    next => exact .inl ⟨_, rfl⟩
    next =>
      split
      next => exact .inl ⟨_, rfl⟩
      next =>
        split
        next => exact .inl ⟨_, rfl⟩
        next =>
          rcases hrun : executeEntries batch.entries r with ⟨reply, r'⟩
          cases reply with
          | error e => exact .inl ⟨e, rfl⟩
          | ok rows => exact .inr (.inr ⟨rows, r', rfl, rfl⟩)

theorem Tracks.execute (h : r₀.Tracks r c) (batch : ExecutionBatch) :
    r₀.Tracks (r.execute batch).2 (c.after batch.entries (r.execute batch).1) := by
  rcases r.execute_cases batch with ⟨e, hrun⟩ | ⟨hempty, hrun⟩ | ⟨rows, r', hentries, hrun⟩
  · rw [hrun]
    exact ⟨h.model, h.vocabSize, h.fed⟩
  · rw [hrun, batch.entries_of_isEmpty hempty]
    exact h
  · rw [hrun]
    exact h.executeEntries hentries

theorem Tracks.runCalls (h : r₀.Tracks r c) (calls : List ExecutorCall) :
    r₀.Tracks (runCalls calls r).2 ((PagedServing.runCalls calls r).1.foldl Caller.observe c) := by
  induction calls generalizing r c with
  | nil => exact h
  | cons call rest ih =>
      cases call with
      | execute batch => exact ih (h.execute batch)
      | sequencesFinished ids => exact ih (c := c.finish ids) ⟨h.model, h.vocabSize, h.fed⟩

/-- Each token of an answer continues what its sequence has been fed. -/
theorem Tracks.rows (h : r₀.Tracks r c) {batch : ExecutionBatch} {output : ExecutionOutput}
    (hids : batch.entries.map (·.seqId) = batch.seqIds) (hnodup : batch.seqIds.Nodup)
    (hrun : (r.execute batch).1 = .ok output) :
    ∀ row ∈ output.seqIds.zip output.nextTokens, ∃ entry ∈ batch.entries,
      entry.seqId = row.1 ∧
        r₀.model.nextToken r₀.vocabSize (c.fed row.1 ++ entry.tokens) = some row.2 := by
  rw [← h.model, ← h.vocabSize, ← h.fed]
  rcases r.execute_cases batch with ⟨e, hcase⟩ | ⟨-, hcase⟩ | ⟨rows, r', hentries, hcase⟩
  · rw [hcase] at hrun
    cases hrun
  · rw [hcase] at hrun
    cases hrun
    exact fun row hrow => absurd hrow List.not_mem_nil
  · rw [hcase] at hrun
    cases hrun
    dsimp only
    rw [← hids]
    exact executeEntries_rows (hids ▸ hnodup) hentries

end ReferenceExecutor

theorem Answered.length_under_le {b : ExecutionBatch} {output : ExecutionOutput}
    (h : Answered b output) (id : SeqId) :
    (under id (output.seqIds.zip output.nextTokens)).length ≤ 1 := by
  rw [length_under, List.map_fst_zip h.tokens.ge]
  exact List.nodup_iff_count_le_one.1 h.nodup id

theorem Setting.Allows.whole {τ δ : Type} [IncrementalDecoder δ] [TokenizerTrait τ δ]
    {x : Setting τ} {r : Request} {out : List TokenId} {texts : List String}
    {report : CompletedRequest} (h : x.Allows r out texts (.reported report : Place δ))
    (hstop : r.params.stop = []) (hsuccess : report.success = true) :
    report.outputTokens = out ∧ x.finishes (r.withOutput out) = true := by
  obtain ⟨req, decoder, before, hended, hcompleted, -, rfl, -⟩ := h.of_success hsuccess
  cases hended with
  | failed reason hreq _ => simp [Request.fail] at hcompleted
  | finished hreq _ hfin _ => exact ⟨hreq.outputTokens, hfin⟩
  | finishedHit _ _ _ hhit => simp [Request.stopKeep_of_no_stop hstop] at hhit
  | stopped _ _ _ hhit => simp [Request.stopKeep_of_no_stop hstop] at hhit

/-! ## Sessions -/

namespace Session

variable {V σ τ δ : Type} [IncrementalDecoder δ] [TokenizerTrait τ δ] {x : Setting τ}
  {answer : List TokenId → TokenId → Prop} {R : σ → Fed → Prop} {s : Session σ τ δ}
  {r₀ : ReferenceExecutor V}

/-- The tokens generated so far are those that `next` chooses. -/
def Chosen (next : List TokenId → Option TokenId) (s : Session σ τ δ) : Prop :=
  ∀ r ∈ s.admitted, Chooses next r.inputTokens (s.generated r.id)

omit [IncrementalDecoder δ] [TokenizerTrait τ δ] in
/-- No other part of an operation generates tokens. -/
theorem Chosen.keep {next : List TokenId → Option TokenId} {s' : Session σ τ δ} (h : s.Chosen next)
    (hadmitted : s'.admitted = s.admitted)
    (hgenerated : ∀ id, s'.generated id = s.generated id) : s'.Chosen next := by
  intro r hr
  rw [hadmitted] at hr
  rw [hgenerated]
  exact h r hr

/-- The reference executor would have answered all calls alike. -/
def Mirrored (r₀ : ReferenceExecutor V) (s : Session σ τ δ) : Prop :=
  (runCalls (s.calls.map BackendCall.call) r₀).1 = s.calls

theorem Mirrored.of_append {call : BackendCall} {calls : List BackendCall}
    (h : (runCalls ((calls ++ [call]).map BackendCall.call) r₀).1 = calls ++ [call]) :
    (runCalls (calls.map BackendCall.call) r₀).1 = calls ∧
      (runCalls [call.call] (runCalls (calls.map BackendCall.call) r₀).2).1 = [call] := by
  rw [List.map_append, runCalls_append] at h
  exact List.append_inj h (by rw [runCalls_length, List.length_map])

/-- Each request gets the tokens that `next` chooses from its prompt alone. -/
structure Decodes (x : Setting τ) (next : List TokenId → Option TokenId) (s : Session σ τ δ) :
    Prop where
  chosen : s.Chosen next
  reported : ∀ r ∈ s.admitted, ∀ report ∈ s.reports, report.requestId = r.id →
    report.outputTokens <+: s.generated r.id
  /-- A success without stop strings has all of the tokens, and their text. -/
  whole : ∀ r ∈ s.admitted, r.params.stop = [] → ∀ report ∈ s.reports, report.requestId = r.id →
    report.success = true →
      generate? next (· == x.eosTokenId) r.params.maxTokens.toNat
        r.inputTokens = some report.outputTokens ∧
      TokenizerTrait.tryDecode x.tokenizer report.outputTokens = .ok report.outputText

theorem Inv.decodes (hi : s.Inv answer R x) {next : List TokenId → Option TokenId}
    (hchosen : s.Chosen next) : s.Decodes x next where
  chosen := hchosen
  reported := by
    intro r hr report hreport hid
    obtain ⟨hgen, hallows⟩ := hi.outcome hr hreport hid
    exact (hallows.truthful hgen (hi.admits r hr).1).kept
  whole := by
    intro r hr hstop report hreport hid hsuccess
    obtain ⟨hgen, hallows⟩ := hi.outcome hr hreport hid
    obtain ⟨hadmits, -⟩ := hi.admits r hr
    obtain ⟨req, -, -, -, -, htext, hreq, -⟩ := hallows.of_success hsuccess
    obtain ⟨hout, hfin⟩ := hallows.whole hstop hsuccess
    refine ⟨?_, ?_⟩
    · rw [hout]
      exact generate?_eq_some (hchosen r hr) (hgen.length_le hadmits) (hgen.dropLast_ne_eos hadmits)
        (hgen.ends hadmits hfin)
    · rw [hreq] at htext ⊢
      exact htext

/-- What has been fed for a listed request, its entry in the batch included. -/
theorem Tracked.fed_listed (h : s.Tracked x.config.blockSize.toNat) (hi : s.Inv answer R x)
    {b : ExecutionBatch} (hb : s.engine.output.Builds b) {entry : BatchEntry}
    (hentry : entry ∈ b.entries) {r : Request} (hr : r ∈ s.admitted) (hid : entry.seqId = r.id) :
    s.caller.fed r.id ++ entry.tokens = r.inputTokens ++ s.generated r.id := by
  rw [hb.entries] at hentry
  obtain ⟨seq, hseq, hlists⟩ := SchedulerOutput.exists_lists hentry
  obtain ⟨r', hr', w, entry', d, hw, ht, hsched, hcont, hlists'⟩ := hi.listed_continues hseq
  obtain rfl := hlists'.unique (InferenceEngine.output_nodup hi.sound) hlists
  have hid' : entry'.seqId = r'.id := Request.TraceLaw.fedEntry_seqId hcont.fed
  obtain rfl : r' = r := List.inj_on_of_nodup_map hi.once hr' hr (hid'.symm.trans hid)
  have hlive : 1 < s.engine.rank r' := by
    obtain ⟨req, hlive, -⟩ := hsched.live ""
    rw [ht.place.rank hi.sound.wf]
    exact (hlive.lt_rank (hi.admits r' hr).1 hw).2
  have hlaw := hi.traces.law r' hr
  have hcount := hcont.count
  have hfed := hcont.fed
  have hext := hcont.extends_prev
  rw [ht.entries, ht.generated] at hcount
  rw [ht.entries, ht.generated] at hfed
  rw [ht.entries] at hext
  rw [h.fed r' hr hlive]
  exact hlaw.next_tokens hcount hfed hcont.fits hext

variable [GPUExecutorTrait σ]

/-- What the next call answers for a request is what `next` chooses after all its tokens. -/
theorem Mirrored.row (hm : s.advance.Mirrored r₀) (hnew : r₀.fed = fun _ => [])
    (ht : s.Tracked x.config.blockSize.toNat) (hi : s.Inv answer R x) {b : ExecutionBatch}
    {output : ExecutionOutput}
    (honce : s.engine.executionPipeline.SentOnce s.engine.output b (.ok output)
      s.advance.engine.executionPipeline) {r : Request} (hr : r ∈ s.admitted) {token : TokenId}
    (hrow : (r.id, token) ∈ output.seqIds.zip output.nextTokens) :
    r₀.model.nextToken r₀.vocabSize (r.inputTokens ++ s.generated r.id) = some token := by
  have hbuilds := honce.sent.builds
  have hids : b.entries.map (·.seqId) = b.seqIds :=
    hbuilds.entries_seqIds.trans hbuilds.seqIds.symm
  have hnodup : b.seqIds.Nodup := hbuilds.seqIds ▸ InferenceEngine.output_nodup hi.sound
  have hcalls : s.advance.calls =
      s.calls ++ [.execute b (s.engine.executionPipeline.attempt b).1] := honce.calls
  rw [Mirrored, hcalls, honce.accepted output rfl] at hm
  obtain ⟨hlog, hreply⟩ := Mirrored.of_append hm
  have htracks : r₀.Tracks (runCalls (s.calls.map BackendCall.call) r₀).2 s.caller := by
    have hrun := ReferenceExecutor.Tracks.runCalls (c := {}) ⟨rfl, rfl, hnew⟩
      (s.calls.map BackendCall.call)
    rwa [hlog] at hrun
  obtain ⟨entry, hentry, hid, hnext⟩ := htracks.rows hids hnodup
    (BackendCall.execute.inj (List.cons.inj hreply).1).2 (r.id, token) hrow
  rw [← ht.fed_listed hi hbuilds hentry hr hid]
  exact hnext

theorem Chosen.advance (h : s.Chosen (r₀.model.nextToken r₀.vocabSize))
    (hretry : s.engine.executionPipeline.capabilities.retrySafe = false) (hi : s.Inv answer R x)
    (ht : s.Tracked x.config.blockSize.toNat) (hnew : r₀.fed = fun _ => [])
    (hm : s.advance.Mirrored r₀) : s.advance.Chosen (r₀.model.nextToken r₀.vocabSize) := by
  intro r hr
  rcases advance_once hretry hi with ⟨hsame, -⟩ | ⟨b, result, honce, -⟩
  · rw [generated, calls, hsame]
    exact h r hr
  · have hattempts := honce.sent.attempts
    cases result with
    | error e =>
        have htokens : s.advance.generated r.id = s.generated r.id := hattempts.tokensOf_error r.id
        rw [htokens]
        exact h r hr
    | ok output =>
        have htokens : s.advance.generated r.id =
            s.generated r.id ++ under r.id (output.seqIds.zip output.nextTokens) :=
          hattempts.tokensOf_ok r.id
        have hnodup : b.seqIds.Nodup :=
          honce.sent.builds.seqIds ▸ InferenceEngine.output_nodup hi.sound
        have hone := (answered_of_valid hnodup hattempts.accepted).length_under_le r.id
        rw [htokens]
        -- at most one of the answers is for this request
        cases hrows : under r.id (output.seqIds.zip output.nextTokens) with
        | nil =>
            rw [List.append_nil]
            exact h r hr
        | cons token rest =>
            obtain rfl : rest = [] := by
              rw [hrows, List.length_cons] at hone
              exact List.eq_nil_of_length_eq_zero (by omega)
            have hrow : (r.id, token) ∈ output.seqIds.zip output.nextTokens :=
              mem_under.1 (hrows ▸ List.mem_cons_self)
            exact (h r hr).concat (hm.row hnew ht hi honce hr hrow)

theorem Chosen.apply (r₀ : ReferenceExecutor V)
    (h : s.Chosen (r₀.model.nextToken r₀.vocabSize))
    (hretry : s.engine.executionPipeline.capabilities.retrySafe = false)
    (hA : Answering σ answer R) (hi : s.Inv answer R x) (hsettled : Settled s.calls)
    (ht : s.Tracked x.config.blockSize.toNat) (hnew : r₀.fed = fun _ => []) (op : EngineOp)
    (hm : op = .stepEvents → s.advance.Mirrored r₀) :
    (s.apply op).Chosen (r₀.model.nextToken r₀.vocabSize) := by
  cases op with
  | submitRequest text params =>
      have hgenerated : ∀ id, (s.submit text params).generated id = s.generated id := fun id => by
        rw [generated, generated, calls_submit]
      rcases s.submit_cases text params with ⟨sch, hrun, -⟩ | ⟨inputTokens, -, -, hrun⟩
      · exact h.keep (by rw [Session.apply, hrun]; rfl) hgenerated
      · intro r hr
        rw [Session.apply] at hr ⊢
        rw [hgenerated]
        rw [hrun] at hr
        rcases List.mem_append.1 hr with hr | hr
        · exact h r hr
        · have hfresh : r.id ∉ s.admitted.map (·.id) := by
            rw [List.mem_singleton.1 hr]
            intro hmem
            obtain ⟨q, hq, hid⟩ := List.mem_map.1 hmem
            exact (hi.admits q hq).2.ne (hid.trans hi.numbering)
          rw [generated, (hi.strangers r.id hfresh).2.2.1]
          intro k t hk
          cases hk
  | cancelRequest requestId => exact h.keep rfl fun _ => rfl
  | stepEvents =>
      have hmid := hi.stage (advance_stage hA hi hsettled)
      rw [Session.apply, step_eq hi.sound]
      exact (h.advance hretry hi ht hnew (hm rfl)).keep rfl
        (calls_collected (InferenceEngine.collectCompletedRequests_collected hmid.sound)).2
  | failPendingRequests reason => exact h.keep rfl fun _ => rfl

end Session

/-! ## The CPU executor -/

namespace Session

variable {V τ δ : Type} {s : Session (CpuReferenceExecutor V) τ δ} {config : EngineConfig}
  {vocabSize : Nat} {model : CpuModel V}

theorem mirrored_of_conforms (hbs : 0 < config.blockSize.toNat)
    (hreplays : s.Replays (CpuReferenceExecutor.new config vocabSize model))
    (hconforms : Caller.Conforms config.blockSize.toNat {} s.calls) :
    s.Mirrored (ReferenceExecutor.new config vocabSize model) := by
  have hlog : runCalls (s.calls.map BackendCall.call)
      (CpuReferenceExecutor.new config vocabSize model) =
        (s.calls, s.engine.executionPipeline.gpuExecutor) := hreplays
  have hsame := CpuReferenceExecutor.refines_reference config vocabSize model hbs
    (s.calls.map BackendCall.call) (by rw [hlog]; exact hconforms)
  rw [hlog] at hsame
  exact hsame.symm

variable [IncrementalDecoder δ] [TokenizerTrait τ δ] {tokenizer : τ}

theorem Whole.chosen_run (h : s.Whole (settingOf config tokenizer))
    (hreplays : s.Replays (CpuReferenceExecutor.new config vocabSize model))
    (hchosen : s.Chosen (model.nextToken vocabSize)) (ops : List EngineOp)
    (hclear : s.StepsClear ops) : (s.run ops).Chosen (model.nextToken vocabSize) := by
  induction ops generalizing s with
  | nil => exact hchosen
  | cons op rest ih =>
      refine ih (h.apply op hclear.1)
        (hreplays.apply h.inv (Answering.any _) h.settled op) ?_ hclear.2
      exact hchosen.apply (.new config vocabSize model) rfl (Answering.any _) h.inv h.settled
        h.tracked rfl op fun hop => mirrored_of_conforms h.inv.valid.blockSize_pos
          (hreplays.advance h.inv) (h.conforms_advance (hclear.1 hop))

theorem decodes_of_clear (hvalid : config.validate = .ok ()) (tokenizer : τ) (vocabSize : Nat)
    (model : CpuModel V) (ops : List EngineOp)
    (hclear : (Session.new config tokenizer (.new config vocabSize model) :
      Session (CpuReferenceExecutor V) τ δ).StepsClear ops) :
    ((Session.new config tokenizer (.new config vocabSize model) :
      Session (CpuReferenceExecutor V) τ δ).run ops).Decodes (settingOf config tokenizer)
        (model.nextToken vocabSize) := by
  have hwhole := Whole.new (δ := δ) hvalid tokenizer vocabSize model
  have hchosen := hwhole.chosen_run rfl (fun r hr => absurd hr List.not_mem_nil) ops hclear
  exact (hwhole.run ops hclear).inv.decodes hchosen

/-- The second request is fed its prompt in the batch that continues the first. -/
def pairedOps : List EngineOp :=
  [.submitRequest "a" { maxTokens := 2 }, .stepEvents, .submitRequest "b" { maxTokens := 2 },
    .stepEvents, .stepEvents]

def pairedSession : Session (CpuReferenceExecutor Nat) SimpleTokenizer SimpleDecoder :=
  (new smallConfig SimpleTokenizer.new
    (.new smallConfig 100 CpuReferenceExecutor.countingModel)).run pairedOps

theorem decodes_of_clear_paired :
    pairedSession.reports.map (fun report => (report.requestId, report.success)) =
        [(1, true), (2, true)] ∧
      pairedSession.Decodes (settingOf smallConfig SimpleTokenizer.new)
        (CpuReferenceExecutor.countingModel.nextToken 100) := by
  refine ⟨by decide +kernel, decodes_of_clear (by decide +kernel) SimpleTokenizer.new 100
    CpuReferenceExecutor.countingModel pairedOps ?_⟩
  decide +kernel

/-- In a run that is not clear a request can be given tokens that the model would not choose:
its rows are gone, and the answer is that of a shorter context. -/
theorem not_decodes_reused :
    ¬ reusedSession.Decodes (settingOf reusedConfig SimpleTokenizer.new)
      (CpuReferenceExecutor.countingModel.nextToken 100) := by
  intro h
  obtain ⟨r, hr, hinput, hgenerated⟩ : ∃ r ∈ reusedSession.admitted,
      r.inputTokens = [1, 70, 2] ∧ reusedSession.generated r.id = [73741134, 2629368078] := by
    decide +kernel
  have hnext := h.chosen r hr 1 2629368078 (by rw [hgenerated]; rfl)
  rw [hinput, hgenerated] at hnext
  revert hnext
  decide +kernel

end Session

end PagedServing
