import PagedServing.Engine.Advance

/-! # A batch that is answered

Every request of the batch gets the token that the answer holds for it, whatever the
order of the answer: its course is served. All other requests are left alone.
-/

namespace PagedServing

open Scheduler Relation FixedWidth LabelledLog

private theorem filterMap_key {items : List (SeqId × TokenId)} (id : SeqId) :
    (items.filterMap fun row => if row.1 = id then some row.2 else none) =
      (items.filter fun row => row.1 = id).map Prod.snd := by
  induction items with
  | nil => rfl
  | cons row rest ih => by_cases h : row.1 = id <;> simp [h, ih]

/-- A served token leaves its request running or at its end. -/
theorem Setting.settle_cases {τ δ : Type} [IncrementalDecoder δ] [TokenizerTrait τ δ]
    (x : Setting τ) (seq : Sequence) (decoder : δ) (token : TokenId) :
    (∃ d, (x.settle seq decoder token).1 = .running seq d) ∨
      ∃ req d, (x.settle seq decoder token).1 = .ended req d := by
  cases hfin : x.finishes seq.request with
  | true =>
      cases hstop : seq.request.stopKeep x.tokenizer with
      | some keep => exact .inr ⟨_, _, by rw [Setting.settle_finished_hit decoder token hfin hstop]⟩
      | none => exact .inr ⟨_, _, by rw [Setting.settle_finished decoder token hfin hstop]⟩
  | false =>
      cases hstop : seq.request.stopKeep x.tokenizer with
      | some keep => exact .inr ⟨_, _, by rw [Setting.settle_hit decoder token hfin hstop]⟩
      | none =>
          rw [Setting.settle_open decoder token hfin hstop]
          cases (IncrementalDecoder.push decoder token).1 with
          | ok pushed => exact .inl ⟨_, rfl⟩
          | error message => exact .inr ⟨_, _, rfl⟩

theorem Setting.settle_running {τ δ : Type} [IncrementalDecoder δ] [TokenizerTrait τ δ]
    {x : Setting τ} {seq seq' : Sequence} {d d' : δ} {token : TokenId}
    (h : (x.settle seq d token).1 = .running seq' d') : seq' = seq := by
  rcases x.settle_cases seq d token with ⟨_, heq⟩ | ⟨_, _, heq⟩
  · rw [heq] at h
    cases h
    rfl
  · rw [heq] at h
    cases h

theorem Setting.settle_ne_reported {τ δ : Type} [IncrementalDecoder δ] [TokenizerTrait τ δ]
    (x : Setting τ) (seq : Sequence) (d : δ) (token : TokenId) (report : CompletedRequest) :
    (x.settle seq d token).1 ≠ .reported report := by
  rcases x.settle_cases seq d token with ⟨_, heq⟩ | ⟨_, _, heq⟩
  · rw [heq]
    rintro ⟨⟩
  · rw [heq]
    rintro ⟨⟩

namespace ExecutionOutput

variable {o : ExecutionOutput}

theorem keys_rows (hlen : o.nextTokens.length = o.seqIds.length) :
    o.rows.map Prod.fst = o.seqIds := by
  have h := congrArg (List.map Prod.fst) (rows_tokens hlen)
  rw [List.map_map, List.map_fst_zip hlen.ge] at h
  exact h

/-- The one row of an id in an output of distinct ids. -/
theorem exists_row (hlen : o.nextTokens.length = o.seqIds.length) (hnodup : o.seqIds.Nodup)
    {id : SeqId} (hid : id ∈ o.seqIds) :
    ∃ row, o.rows.lookup id = some row ∧ (id, row.token) ∈ o.seqIds.zip o.nextTokens := by
  rw [← keys_rows hlen] at hid hnodup
  obtain ⟨⟨_, row⟩, hrow, rfl⟩ := List.mem_map.1 hid
  refine ⟨row, IdMap.lookup_eq_some_of_mem hnodup hrow, ?_⟩
  rw [← rows_tokens hlen]
  exact List.mem_map.2 ⟨_, hrow, rfl⟩

end ExecutionOutput

namespace InferenceEngine

variable {σ τ δ : Type} {e : InferenceEngine σ τ δ} {r : Request} {place : Place δ}

/-- The engine after the update with the answer to a batch. -/
def updated (e : InferenceEngine σ τ δ) (pipeline : BatchExecutionPipeline σ)
    (output : ExecutionOutput) : InferenceEngine σ τ δ :=
  { e.scheduled with
    scheduler := e.scheduled.scheduler.updateSequences output e.eosTokenId
    executionPipeline := pipeline }

section Settled

variable [IncrementalDecoder δ] [TokenizerTrait τ δ]

/-- The stop check and the decoders after an update. -/
def settled (e : InferenceEngine σ τ δ) (generated : List (RequestId × TokenId)) :
    InferenceEngine σ τ δ × List StepChunk :=
  generated.foldl pushToken (e.applyStopSequences generated, [])

theorem settled_stages {generated : List (RequestId × TokenId)} (hs : e.scheduler.Sound)
    (hnodup : (generated.map Prod.fst).Nodup)
    (hp : ∀ g ∈ generated, ∀ p ∈ e.scheduler.pendingQueue, p.seqId ≠ g.1) :
    e.Stopped (e.toStop generated) (e.applyStopSequences generated) ∧
      (e.applyStopSequences generated).Pushed generated (e.settled generated).1
        (e.settled generated).2 := by
  have hstop := foldl_stopOne hs (toStop_nodup (e := e) hnodup)
  obtain ⟨chunks, hacc, hpush⟩ := foldl_pushToken (e := e.applyStopSequences generated)
    (hs.moves hstop.removed.moves) hnodup (hstop.removed.pending ▸ hp) []
  rw [List.nil_append] at hacc
  refine ⟨hstop, ?_⟩
  rw [settled, hacc]
  exact hpush

end Settled

variable [GPUExecutorTrait σ] {pipeline : BatchExecutionPipeline σ} {b : ExecutionBatch}
  {output : ExecutionOutput}

theorem answered_of_sent (hs : e.scheduler.Sound)
    (h : e.executionPipeline.Sent e.output b (.ok output) pipeline) : Answered b output :=
  answered_of_valid (h.builds.seqIds ▸ output_nodup hs) h.attempts.accepted

theorem mem_output_iff (hs : e.scheduler.Sound)
    (h : e.executionPipeline.Sent e.output b (.ok output) pipeline) {id : SeqId} :
    id ∈ output.seqIds ↔ id ∈ e.output.seqIds := by
  rw [(answered_of_sent hs h).perm.mem_iff, h.builds.seqIds]

theorem updated_updated (hs : e.scheduler.Sound)
    (h : e.executionPipeline.Sent e.output b (.ok output) pipeline) :
    e.scheduled.scheduler.Updated e.eosTokenId output.rows (e.updated pipeline output).scheduler :=
  have ha := answered_of_sent hs h
  updateSequences_updated _ (scheduled_sound hs).wf ha.nodup ha.tokens fun _ hid =>
    output_active hs _ ((mem_output_iff hs h).1 hid)

theorem generated_updated (hs : e.scheduler.Sound)
    (h : e.executionPipeline.Sent e.output b (.ok output) pipeline) :
    generatedTokens e.output output = output.seqIds.zip output.nextTokens :=
  generatedTokens_eq (output_label hs) fun _ hid => (mem_output_iff hs h).1 hid

theorem keys_generated (hs : e.scheduler.Sound)
    (h : e.executionPipeline.Sent e.output b (.ok output) pipeline) :
    (generatedTokens e.output output).map Prod.fst = output.seqIds := by
  rw [generated_updated hs h, List.map_fst_zip (answered_of_sent hs h).tokens.ge]

theorem updated_moves (hs : e.scheduler.Sound)
    (h : e.executionPipeline.Sent e.output b (.ok output) pipeline) :
    Moves e.scheduler (e.updated pipeline output).scheduler :=
  (schedule_moves hs.wf).trans (updated_updated hs h).moves

theorem updated_sound (hs : e.scheduler.Sound)
    (h : e.executionPipeline.Sent e.output b (.ok output) pipeline) :
    (e.updated pipeline output).scheduler.Sound := hs.moves (updated_moves hs h)

theorem updated_idle (hs : e.scheduler.Sound) (hidle : e.scheduler.prefillSequences = ∅)
    (h : e.executionPipeline.Sent e.output b (.ok output) pipeline) :
    (e.updated pipeline output).scheduler.prefillSequences = ∅ := by
  have ha := answered_of_sent hs h
  rw [IdMap.eq_empty_iff]
  intro k
  rw [(updated_updated hs h).prefill]
  split
  next => rfl
  next hrow =>
    cases hk : e.scheduled.scheduler.prefillSequences[k]? with
    | none => rfl
    | some seq =>
        have hid := (mem_output_iff hs h).2 (prefill_mem_output hs hidle hk)
        obtain ⟨row, hlookup, -⟩ := ExecutionOutput.exists_row ha.tokens ha.nodup hid
        simp [hlookup] at hrow

/-- A request without a row keeps its place, or is failed there by the pass. -/
theorem updated_keeps (hs : e.scheduler.Sound)
    (h : e.executionPipeline.Sent e.output b (.ok output) pipeline)
    (hid : r.id ∉ e.output.seqIds) (hk : e.scheduled.Keeps r place) :
    (e.updated pipeline output).Keeps r place := by
  refine hk.of_same (fun _ => ((updated_updated hs h).holds_of_not_mem ?_).symm) rfl
  rw [ExecutionOutput.keys_rows (answered_of_sent hs h).tokens]
  exact fun hmem => hid ((mem_output_iff hs h).1 hmem)

/-- A request with a row is served by it. -/
theorem updated_served {seq : Sequence} {row : OutputRow} (hs : e.scheduler.Sound)
    (hconfig : e.scheduler.config = e.config)
    (h : e.executionPipeline.Sent e.output b (.ok output) pipeline)
    (hrow : output.rows.lookup r.id = some row)
    (hseq : e.scheduled.scheduler.active r.id = some seq) :
    (e.updated pipeline output).Served r.id (seq.next row) := by
  have hcfg : e.scheduled.scheduler.config = e.config :=
    (Moves.evolves hs.wf (schedule_moves hs.wf)).config.trans hconfig
  have hfin : e.scheduled.scheduler.finishes e.eosTokenId (seq.next row) =
      (e.updated pipeline output).setting.finishes (seq.next row).request := by
    rw [finishes, hcfg]
    rfl
  rw [Served, ← hfin]
  exact (updated_updated hs h).holds_of_mem hrow hseq

variable [IncrementalDecoder δ] [TokenizerTrait τ δ]

/-- An answered batch, up to the collection. -/
def served (e : InferenceEngine σ τ δ) (pipeline : BatchExecutionPipeline σ)
    (output : ExecutionOutput) : InferenceEngine σ τ δ × List StepChunk :=
  (e.updated pipeline output).settled (generatedTokens e.output output)

/-- The two loops between the update and the collection. -/
structure Serves (e : InferenceEngine σ τ δ) (pipeline : BatchExecutionPipeline σ)
    (output : ExecutionOutput) (stopped : InferenceEngine σ τ δ) : Prop where
  stop : (e.updated pipeline output).Stopped
    ((e.updated pipeline output).toStop (generatedTokens e.output output)) stopped
  push : stopped.Pushed (generatedTokens e.output output) (e.served pipeline output).1
    (e.served pipeline output).2

theorem served_stages (hs : e.scheduler.Sound)
    (h : e.executionPipeline.Sent e.output b (.ok output) pipeline) :
    ∃ stopped, e.Serves pipeline output stopped := by
  have hkeys := keys_generated hs h
  have hnodup : ((generatedTokens e.output output).map Prod.fst).Nodup :=
    hkeys ▸ (answered_of_sent hs h).nodup
  obtain ⟨hstop, hpush⟩ := settled_stages (updated_sound hs h) hnodup (by
    intro g hg p hp
    rw [(updated_updated hs h).pending] at hp
    have hid : g.1 ∈ output.seqIds := hkeys ▸ List.mem_map_of_mem hg
    obtain ⟨seq, hseq⟩ := output_active hs g.1 ((mem_output_iff hs h).1 hid)
    exact not_pending_of_active (scheduled_sound hs).wf hseq p hp)
  exact ⟨_, hstop, hpush⟩

theorem served_pipeline (hs : e.scheduler.Sound)
    (h : e.executionPipeline.Sent e.output b (.ok output) pipeline) :
    (e.served pipeline output).1.executionPipeline = pipeline := by
  obtain ⟨stopped, hstop, hpush⟩ := served_stages hs h
  exact hpush.rest.executionPipeline.trans hstop.rest.executionPipeline

end InferenceEngine

/-! ## What an answered batch has fed -/

namespace Session

variable {σ τ δ : Type} [IncrementalDecoder δ] [TokenizerTrait τ δ] {x : Setting τ}
  {answer : List TokenId → TokenId → Prop} {r : Request} {w : Course δ} {fed : Fed}
  {o : SchedulerOutput} {b : ExecutionBatch} {seq : Sequence} {entry : BatchEntry} {d : δ}

/-- All tokens of a scheduled sequence have been fed once its batch has. -/
theorem feed_of_scheduled (hr : x.Admits r) (hw : w.Lawful x answer r) (hf : FedBy fed r w)
    (hsched : w.place.Scheduled x.config r seq entry d) (hlists : o.Lists seq entry)
    (hb : o.Builds b) (hshape : validateBatchShape b = .ok ()) (hnodup : o.seqIds.Nodup) :
    fed.feed b r.id = seq.request.inputTokens ++ seq.request.outputTokens := by
  have hbetween := Course.between_of_scheduled hr hw.place hsched
  rw [← hbetween.seqId]
  generalize hplace : w.place = place at hsched
  cases hsched with
  | start _ hblocks =>
      rcases hlists with ⟨hmem, -⟩ | ⟨-, hentry⟩
      · have hne := (hb.cut.entry_nonempty hshape _
          (hb.entries ▸ SchedulerOutput.Lists.mem_entries (.inl ⟨hmem, rfl⟩))).1
        rw [hb.feed_prefill hnodup fed hmem hne]
        exact (List.append_nil _).symm.trans (congrArg _ hr.after.outputTokens.symm)
      · exact absurd (congrArg BatchEntry.isPrefill hentry) (by simp [Sequence.prefillEntry,
          Sequence.feedEntry, Sequence.decodeEntry])
  | @step _ old _ hgrown =>
      rcases hlists with ⟨-, hentry⟩ | ⟨hmem, -⟩
      · exact absurd (congrArg BatchEntry.isPrefill hentry) (by simp [Sequence.prefillEntry,
          Sequence.feedEntry, Sequence.decodeEntry])
      · have hold := hf old d hplace
        have hsame : old.request = seq.request := by
          rcases hgrown with ⟨-, rfl⟩ | ⟨-, ref, rfl⟩ <;> rfl
        have hne : seq.request.outputTokens ≠ [] := by
          have hallows := hw.place
          rw [hplace] at hallows
          rw [hbetween.after.outputTokens]
          exact hallows.1
        have hlast : seq.request.outputTokens.getLast? =
            some (seq.request.outputTokens.getLast hne) := List.getLast?_eq_some_getLast hne
        have htoken : seq.decodeInputToken = some (seq.request.outputTokens.getLast hne) := by
          rw [Sequence.decodeInputToken, hlast]
          rfl
        rw [hsame, ← hbetween.seqId] at hold
        have hpos := List.length_pos_of_ne_nil hne
        rw [hb.feed_decode hnodup fed hmem htoken, hold, List.append_assoc,
          List.dropLast_append_getLast]
        rw [hold, hbetween.contextLen hr, List.length_append, List.length_dropLast,
          hbetween.after.inputTokens, hbetween.after.outputTokens]
        rw [hbetween.after.outputTokens] at hpos
        omega

/-! ## The stage -/

/-- The session after a part of a step, with what that has streamed. -/
def stream (s : Session σ τ δ) (out : InferenceEngine σ τ δ × List StepChunk) : Session σ τ δ :=
  { s with engine := out.1, chunks := s.chunks ++ out.2 }

variable [GPUExecutorTrait σ] {R : σ → Fed → Prop} {s : Session σ τ δ}
  {pipeline : BatchExecutionPipeline σ} {output : ExecutionOutput}

theorem calls_served (hs : s.engine.scheduler.Sound)
    (h : s.engine.executionPipeline.Sent s.engine.output b (.ok output) pipeline) :
    (s.stream (s.engine.served pipeline output)).calls = pipeline.calls :=
  congrArg BatchExecutionPipeline.calls (InferenceEngine.served_pipeline hs h)

theorem serve_listed (hx : s.engine.setting = x) (hs : s.engine.scheduler.Sound)
    (hconfig : s.engine.scheduler.config = s.engine.config) (hsettled : Settled s.calls)
    (h : s.engine.executionPipeline.Sent s.engine.output b (.ok output) pipeline)
    (hrows : ∀ row ∈ output.seqIds.zip output.nextTokens, answer (fed.feed b row.1) row.2)
    (hr : x.Admits r) (hw : w.Lawful x answer r) (ht : s.Tells r w) (hf : FedBy fed r w)
    (hsched : w.place.Scheduled x.config r seq entry d)
    (hlists : s.engine.output.Lists seq entry) (hid : seq.seqId = r.id)
    (hseq : s.engine.scheduled.scheduler.active r.id = some seq)
    (hd : s.engine.decoders[r.id]? = some d) :
    ∃ w', Course.Steps x answer r w w' ∧
      (s.stream (s.engine.served pipeline output)).Tells r w' ∧ FedBy (fed.feed b) r w' := by
  have ha := InferenceEngine.answered_of_sent hs h
  have hmem : r.id ∈ s.engine.output.seqIds := hid ▸ hlists.mem_seqIds
  have hmem' : r.id ∈ output.seqIds := (InferenceEngine.mem_output_iff hs h).2 hmem
  obtain ⟨row, hrow, hpair⟩ := ExecutionOutput.exists_row ha.tokens ha.nodup hmem'
  obtain ⟨stopped, hstop, hpush⟩ := InferenceEngine.served_stages hs h
  have hserved := InferenceEngine.updated_served hs hconfig h hrow hseq
  have hkeys := InferenceEngine.keys_generated hs h
  have hgen := InferenceEngine.generated_updated hs h
  obtain ⟨hplace, htexts⟩ := InferenceEngine.holdsAt_settle (InferenceEngine.updated_sound hs h)
    (hkeys ▸ ha.nodup) (hgen ▸ hpair) hserved hd hstop hpush
  have hsetting : (s.engine.updated pipeline output).setting = x := hx
  rw [hsetting] at hplace htexts
  have hfeed := feed_of_scheduled hr hw hf hsched hlists h.builds h.shape
    (InferenceEngine.output_nodup hs)
  have hcalls := calls_served hs h
  refine ⟨_, .single (.serve row hsched (hfeed ▸ hrows _ hpair)), ⟨hplace, ?_, ?_, ?_, ?_⟩, ?_⟩
  · exact fun report hreport => absurd hreport (x.settle_ne_reported _ _ _ _)
  · have hentries := hlists.filter_entries (InferenceEngine.output_nodup hs)
    rw [hcalls, h.attempts.entriesOf hsettled, h.builds.entries, ← hid, hentries, hid, ht.entries]
    rfl
  · have htoken : ((output.seqIds.zip output.nextTokens).filterMap fun p =>
        if p.1 = r.id then some p.2 else none) = [row.token] := by
      have hnodup : ((output.seqIds.zip output.nextTokens).map Prod.fst).Nodup := by
        rw [List.map_fst_zip ha.tokens.ge]
        exact ha.nodup
      rw [filterMap_key, filter_key hnodup hpair]
      rfl
    rw [hcalls, h.attempts.tokensOf_ok, htoken, ht.generated]
    rfl
  · rw [stream, textsOf_append, htexts, ht.texts]
  · intro seq' d' hrunning
    rw [Setting.settle_running hrunning, hfeed]
    simp [Sequence.next, Sequence.appendToken]

/-- A request outside the batch. -/
theorem serve_unlisted (hs : s.engine.scheduler.Sound) (hsettled : Settled s.calls)
    (h : s.engine.executionPipeline.Sent s.engine.output b (.ok output) pipeline) {id : SeqId}
    (hid : id ∉ s.engine.output.seqIds) :
    entriesOf (s.stream (s.engine.served pipeline output)).calls id = entriesOf s.calls id ∧
      tokensOf (s.stream (s.engine.served pipeline output)).calls id = tokensOf s.calls id ∧
      textsOf (s.stream (s.engine.served pipeline output)).chunks id = textsOf s.chunks id := by
  have ha := InferenceEngine.answered_of_sent hs h
  have hid' : id ∉ output.seqIds := fun hmem => hid ((InferenceEngine.mem_output_iff hs h).1 hmem)
  obtain ⟨stopped, hstop, hpush⟩ := InferenceEngine.served_stages hs h
  have hcalls := calls_served hs h
  refine ⟨?_, ?_, ?_⟩
  · rw [hcalls, h.attempts.entriesOf hsettled, h.builds.entries,
      filter_key_nil (s.engine.output.entries_seqIds ▸ hid), List.append_nil]
    rfl
  · have hnone : id ∉ (output.seqIds.zip output.nextTokens).map Prod.fst := by
      rwa [List.map_fst_zip ha.tokens.ge]
    rw [hcalls, h.attempts.tokensOf_ok, filterMap_key, filter_key_nil hnone, List.map_nil,
      List.append_nil]
    rfl
  · rw [stream, textsOf_append, textsOf_of_texts hpush.texts,
      under_flatMap_of_not_mem (InferenceEngine.keys_generated hs h ▸ hid'), List.append_nil]

theorem serve_stage (hA : Answering σ answer R) (hi : s.Inv answer R x) (hsettled : Settled s.calls)
    (h : s.engine.executionPipeline.Sent s.engine.output b (.ok output) pipeline) :
    Stage x answer R s (s.stream (s.engine.served pipeline output)) := by
  have hs := hi.sound
  have hconfig : s.engine.scheduler.config = s.engine.config :=
    hi.config.trans (congrArg Setting.config hi.setting).symm
  have hkeys := InferenceEngine.keys_generated hs h
  obtain ⟨stopped, hstop, hpush⟩ := InferenceEngine.served_stages hs h
  have hrest := hstop.rest.trans hpush.rest
  have hmoves := ((InferenceEngine.updated_moves hs h).trans hstop.removed.moves).trans
    hpush.removed.moves
  have he := Moves.evolves hs.wf hmoves
  have hcalls := calls_served hs h
  refine ⟨hrest.setting, he.config, hs.moves hmoves, ?_, hrest.nextRequestId, he.nextSeqId, rfl,
    he.ids.append_right _, ?_, ?_, ?_⟩
  · exact hpush.removed.idle (hstop.removed.idle (InferenceEngine.updated_idle hs hi.idle h))
  · intro id hid hd
    have hno : id ∉ s.engine.output.seqIds := fun h =>
      hid (InferenceEngine.mem_ids_of_listed hs h)
    have hno' : id ∉ (InferenceEngine.generatedTokens s.engine.output output).map Prod.fst := by
      rw [hkeys]
      exact fun hmem => hno ((InferenceEngine.mem_output_iff hs h).1 hmem)
    refine ⟨?_, serve_unlisted hs hsettled h hno⟩
    rw [stream, hpush.decoders, IdMap.lookup_eq_none_of_not_mem hno']
    dsimp only
    rw [hstop.decoders, if_neg fun hmem => hno' (InferenceEngine.mem_toStop.1 hmem).1]
    exact hd
  · intro batch hbatch
    rw [hcalls, h.attempts.batchesOf hsettled] at hbatch
    rcases List.mem_append.1 hbatch with hbatch | hbatch
    · exact .inl hbatch
    · rw [List.mem_singleton.1 hbatch]
      exact .inr (InferenceEngine.separate_of_builds hs h.builds)
  · intro fed hR
    obtain ⟨fed', hR', rfl, hrows⟩ := h.answers hA hR
    refine ⟨fed.feed b, ?_, fun r w hr hw ht hf => ?_⟩
    · have hgpu : (s.stream (s.engine.served pipeline output)).engine.executionPipeline = pipeline :=
        hrest.executionPipeline
      rwa [hgpu]
    · rcases InferenceEngine.place_of_schedule hs ht.place with
        ⟨hid, hk⟩ | ⟨seq, entry, d, hsched, hlists, hid, hseq, hd⟩
      · obtain ⟨hentries, htokens, htexts⟩ := serve_unlisted hs hsettled h hid
        have hno : r.id ∉ (InferenceEngine.generatedTokens s.engine.output output).map Prod.fst := by
          rw [hkeys]
          exact fun hmem => hid ((InferenceEngine.mem_output_iff hs h).1 hmem)
        have hkeep := ((InferenceEngine.updated_keeps hs h hid hk).map fun _ =>
          hstop.holdsAt_of_not_mem fun hmem => hno (InferenceEngine.mem_toStop.1 hmem).1).map
            fun _ => hpush.holdsAt_of_not_mem hno
        exact ht.keep hkeep rfl hentries htokens htexts hf (h.builds.feed_of_not_mem fed hid)
      · rw [hi.config] at hsched
        exact serve_listed hi.setting hs hconfig hsettled h hrows hr hw ht hf hsched hlists hid
          hseq hd

end Session

end PagedServing
