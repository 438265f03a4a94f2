import PagedServing.Engine.Session

/-! # One step, before the collection

A step schedules, executes and updates, and only then collects. Up to there it takes
every request along its course: left alone, failed in place, or served a token.
-/

namespace PagedServing

open Scheduler Relation FixedWidth

/-! ## Rows and entries of one sequence -/

theorem filter_key {β : Type} {items : List β} {key : β → Nat} {y : β}
    (hnodup : (items.map key).Nodup) (hy : y ∈ items) :
    (items.filter fun z => key z = key y) = [y] := by
  induction items with
  | nil => simp at hy
  | cons z rest ih =>
    obtain ⟨hz, hrest⟩ := List.nodup_cons.1 hnodup
    rcases List.mem_cons.1 hy with rfl | hy
    · have hnone : (rest.filter fun z => key z = key y) = [] := by
        rw [List.filter_eq_nil_iff]
        intro a ha heq
        exact hz (List.mem_map.2 ⟨a, ha, by simpa using heq⟩)
      simp [hnone]
    · have hne : key z ≠ key y := fun heq => hz (heq ▸ List.mem_map_of_mem hy)
      simp [hne, ih hrest hy]

theorem filter_key_nil {β : Type} {items : List β} {key : β → Nat} {id : Nat}
    (hid : id ∉ items.map key) : (items.filter fun z => key z = id) = [] := by
  rw [List.filter_eq_nil_iff]
  intro a ha heq
  exact hid (List.mem_map.2 ⟨a, ha, by simpa using heq⟩)

namespace SchedulerOutput

variable {o : SchedulerOutput} {seq : Sequence} {entry : BatchEntry}

/-- The schedule lists a sequence, which gets this entry in the batch. -/
def Lists (o : SchedulerOutput) (seq : Sequence) (entry : BatchEntry) : Prop :=
  (seq ∈ o.prefillSequences ∧ entry = seq.prefillEntry) ∨
    (seq ∈ o.decodeSequences ∧ entry = seq.feedEntry)

theorem Lists.mem_entries (h : o.Lists seq entry) : entry ∈ o.entries := by
  rcases h with ⟨hseq, rfl⟩ | ⟨hseq, rfl⟩
  · exact List.mem_append_left _ (List.mem_map_of_mem hseq)
  · exact List.mem_append_right _ (List.mem_map_of_mem hseq)

theorem Lists.seqId_eq (h : o.Lists seq entry) : entry.seqId = seq.seqId := by
  rcases h with ⟨-, rfl⟩ | ⟨-, rfl⟩ <;> rfl

theorem Lists.mem_seqIds (h : o.Lists seq entry) : seq.seqId ∈ o.seqIds := by
  rw [← o.entries_seqIds, ← h.seqId_eq]
  exact List.mem_map_of_mem h.mem_entries

theorem Lists.filter_entries (h : o.Lists seq entry) (hnodup : o.seqIds.Nodup) :
    (o.entries.filter fun e => e.seqId = seq.seqId) = [entry] := by
  rw [← h.seqId_eq]
  exact filter_key (o.entries_seqIds ▸ hnodup) h.mem_entries

theorem Lists.unique {entry' : BatchEntry} (hnodup : o.seqIds.Nodup) (h : o.Lists seq entry)
    (h' : o.Lists seq entry') : entry = entry' :=
  List.singleton_inj.1 ((h.filter_entries hnodup).symm.trans (h'.filter_entries hnodup))

theorem Lists.of_decode (hnodup : o.seqIds.Nodup) (h : o.Lists seq entry)
    (hseq : seq ∈ o.decodeSequences) : entry = seq.feedEntry :=
  h.unique hnodup (.inr ⟨hseq, rfl⟩)

theorem exists_lists (hentry : entry ∈ o.entries) :
    ∃ seq ∈ o.prefillSequences ++ o.decodeSequences, o.Lists seq entry := by
  rcases List.mem_append.1 hentry with hentry | hentry
  · obtain ⟨seq, hseq, rfl⟩ := List.mem_map.1 hentry
    exact ⟨seq, List.mem_append_left _ hseq, .inl ⟨hseq, rfl⟩⟩
  · obtain ⟨seq, hseq, rfl⟩ := List.mem_map.1 hentry
    exact ⟨seq, List.mem_append_right _ hseq, .inr ⟨hseq, rfl⟩⟩

theorem seqIds_of_isEmpty (h : o.isEmpty = true) : o.seqIds = [] := by
  simp only [isEmpty, Bool.and_eq_true, List.isEmpty_iff] at h
  simp [seqIds, h]

theorem seqIds_ne_nil (h : o.isEmpty = false) : o.seqIds ≠ [] := by
  intro hnil
  simp only [seqIds, List.map_eq_nil_iff, List.append_eq_nil_iff] at hnil
  simp [isEmpty, hnil] at h

end SchedulerOutput

theorem ExecutionOutput.rowsFrom_tokens (o : ExecutionOutput) (index : Nat) (ids : List SeqId) :
    index + ids.length ≤ o.nextTokens.length →
      (o.rowsFrom index ids).map (fun row => (row.1, row.2.token)) =
        ids.zip (o.nextTokens.drop index) := by
  induction ids generalizing index with
  | nil => simp [rowsFrom]
  | cons id rest ih =>
    intro hlen
    rw [List.length_cons] at hlen
    have hlt : index < o.nextTokens.length := by omega
    rw [rowsFrom, List.getElem?_eq_getElem hlt, List.drop_eq_getElem_cons hlt]
    dsimp only
    rw [List.map_cons, List.zip_cons_cons, ih (index + 1) (by omega)]

/-- The rows of an output with one token for each sequence. -/
theorem ExecutionOutput.rows_tokens {o : ExecutionOutput}
    (hlen : o.nextTokens.length = o.seqIds.length) :
    o.rows.map (fun row => (row.1, row.2.token)) = o.seqIds.zip o.nextTokens := by
  rw [rows, rowsFrom_tokens o 0 o.seqIds (by omega), List.drop_zero]

theorem requestIdBySeq_eq {o : SchedulerOutput}
    (hlabel : ∀ seq ∈ o.prefillSequences ++ o.decodeSequences, seq.request.id = seq.seqId)
    {id : SeqId} (hid : id ∈ o.seqIds) : (InferenceEngine.requestIdBySeq o)[id]? = some id := by
  have hfold (seqs : List Sequence) (m : IdMap RequestId)
      (hlabel : ∀ seq ∈ seqs, seq.request.id = seq.seqId)
      (hm : id ∈ seqs.map (·.seqId) ∨ m[id]? = some id) :
      (seqs.foldl (fun ids seq => ids.insert seq.seqId seq.request.id) m)[id]? = some id := by
    induction seqs generalizing m with
    | nil => simpa using hm
    | cons seq rest ih =>
      refine ih _ (fun a ha => hlabel a (List.mem_cons_of_mem _ ha)) ?_
      dsimp only
      rw [hlabel seq (by simp), IdMap.get_insert]
      rcases eq_or_ne seq.seqId id with rfl | hne
      · simp
      · rw [if_neg hne]
        rcases hm with hm | hm
        · rcases List.mem_cons.1 hm with heq | hm
          · exact absurd heq.symm hne
          · exact .inl hm
        · exact .inr hm
  exact hfold _ ∅ hlabel (.inl hid)

/-- With requests numbered like sequences, tokens are filed under their sequence. -/
theorem generatedTokens_eq {o : SchedulerOutput} {output : ExecutionOutput}
    (hlabel : ∀ seq ∈ o.prefillSequences ++ o.decodeSequences, seq.request.id = seq.seqId)
    (hsub : ∀ id ∈ output.seqIds, id ∈ o.seqIds) :
    InferenceEngine.generatedTokens o output = output.seqIds.zip output.nextTokens := by
  have hrow : ∀ row ∈ output.seqIds.zip output.nextTokens,
      ((InferenceEngine.requestIdBySeq o)[row.1]?.map fun requestId => (requestId, row.2)) =
        some row := by
    intro row hrow
    rw [requestIdBySeq_eq hlabel (hsub _ (List.of_mem_zip hrow).1)]
    rfl
  rw [InferenceEngine.generatedTokens]
  exact (List.filterMap_congr hrow).trans List.filterMap_some

namespace InferenceEngine

variable {σ τ δ : Type} {e e' : InferenceEngine σ τ δ} {r : Request} {place : Place δ}

/-! ## After the scheduling pass -/

/-- The engine after the scheduling pass. -/
def scheduled (e : InferenceEngine σ τ δ) : InferenceEngine σ τ δ :=
  { e with scheduler := e.scheduler.schedule.2 }

/-- What the pass emits. -/
def output (e : InferenceEngine σ τ δ) : SchedulerOutput := e.scheduler.schedule.1

theorem seqIds_output (e : InferenceEngine σ τ δ) :
    e.output.seqIds = e.scheduler.pass.output.seqIds := rfl

/-- A request is listed by the schedule, or it keeps its place or is failed there. -/
theorem place_of_schedule (hs : e.scheduler.Sound) (h : e.HoldsAt r place) :
    (r.id ∉ e.output.seqIds ∧ e.scheduled.Keeps r place) ∨
      ∃ seq entry d, place.Scheduled e.scheduler.config r seq entry d ∧
        e.output.Lists seq entry ∧ seq.seqId = r.id ∧
        e.scheduled.scheduler.active r.id = some seq ∧ e.decoders[r.id]? = some d := by
  have hw := wf_passStart hs.wf
  have hby := pass_spec hs.wf
  have hw' := hby.wf hw
  cases place with
  | waiting d =>
      rcases hby.holds_of_pending hw h.1 with ⟨hsame, hno⟩ | ⟨⟨reason, hended, hno⟩⟩ |
        ⟨blocks, hlen, hmem⟩
      · exact .inl ⟨hno, .inl ⟨hsame, h.2⟩⟩
      · exact .inl ⟨hno, .inr ⟨_, _, reason, .waiting d, hended, h.2⟩⟩
      · exact .inr ⟨_, _, d, .start d hlen, .inl ⟨hmem, rfl⟩, rfl,
          Wf.active_of_prefill (hby.outPrefill _ hmem), h.2⟩
  | running seq d =>
      rcases hby.holds_of_decode hw h.1 with ⟨hsame, hno⟩ | ⟨⟨reason, hended, hno⟩⟩ |
        ⟨seq', hgrown, hmem⟩
      · exact .inl ⟨hno, .inl ⟨hsame, h.2⟩⟩
      · exact .inl ⟨hno, .inr ⟨_, _, reason, .running seq d, hended, h.2⟩⟩
      · have hid : seq'.seqId = r.id := by
          have hold := hs.wf.seqId_of_active (hs.wf.active_of_holds h.1)
          rcases hgrown with ⟨-, rfl⟩ | ⟨-, ref, rfl⟩ <;> exact hold
        refine .inr ⟨_, _, d, .step d hgrown, .inr ⟨hmem, rfl⟩, hid, ?_, h.2⟩
        rw [← hid]
        exact hw'.active_of_decode (hby.outDecode _ hmem)
  | ended req d =>
      have hended := hby.holds_of_completed hw h.1
      exact .inl ⟨hby.not_mem_of_active_none hw (hw'.active_of_holds hended), .inl ⟨hended, h.2⟩⟩
  | reported report =>
      have hids := (Moves.evolves hs.wf (schedule_moves hs.wf)).ids
      have hno : r.id ∉ e.scheduled.scheduler.ids := fun hmem => h.1 (hids.mem_iff.1 hmem)
      exact .inl ⟨hby.not_mem_of_active_none hw (active_none_of_not_mem_ids hno), .inl ⟨hno, h.2⟩⟩

theorem output_nodup (hs : e.scheduler.Sound) : e.output.seqIds.Nodup := (pass_spec hs.wf).nodup

theorem output_active (hs : e.scheduler.Sound) :
    ∀ id ∈ e.output.seqIds, ∃ seq, e.scheduled.scheduler.active id = some seq := fun _ hid =>
  (pass_spec hs.wf).active_of_mem (wf_passStart hs.wf) hid

theorem scheduled_sound (hs : e.scheduler.Sound) : e.scheduled.scheduler.Sound :=
  hs.moves (schedule_moves hs.wf)

theorem mem_ids_of_listed (hs : e.scheduler.Sound) {id : SeqId} (hid : id ∈ e.output.seqIds) :
    id ∈ e.scheduler.ids := by
  obtain ⟨seq, hseq⟩ := output_active hs id hid
  have hids := (Moves.evolves hs.wf (schedule_moves hs.wf)).ids
  by_contra hno
  rw [scheduled, active_none_of_not_mem_ids fun h => hno (hids.mem_iff.1 h)] at hseq
  cases hseq

/-- Every prefill of the pass is in its output when there was none before. -/
theorem prefill_mem_output (hs : e.scheduler.Sound)
    (hidle : e.scheduler.prefillSequences = ∅) {id : Nat} {seq : Sequence}
    (h : e.scheduled.scheduler.prefillSequences[id]? = some seq) : id ∈ e.output.seqIds := by
  rcases (pass_spec hs.wf).prefill h with hold | ⟨hmem, -⟩
  · change e.scheduler.prefillSequences[id]? = some seq at hold
    simp [hidle] at hold
  · exact hmem

theorem output_label (hs : e.scheduler.Sound) :
    ∀ seq ∈ e.output.prefillSequences ++ e.output.decodeSequences,
      seq.request.id = seq.seqId := by
  have hby := pass_spec hs.wf
  have hl := (scheduled_sound hs).labelled
  intro seq hseq
  rcases List.mem_append.1 hseq with hseq | hseq
  · exact hl.prefill (hby.outPrefill seq hseq)
  · exact hl.decode (hby.outDecode seq hseq)

theorem output_eq_active (hs : e.scheduler.Sound) :
    ∀ seq ∈ e.output.prefillSequences ++ e.output.decodeSequences,
      e.scheduled.scheduler.active seq.seqId = some seq := by
  have hby := pass_spec hs.wf
  intro seq hseq
  rcases List.mem_append.1 hseq with hseq | hseq
  · exact Wf.active_of_prefill (hby.outPrefill seq hseq)
  · exact (scheduled_sound hs).wf.active_of_decode (hby.outDecode seq hseq)

theorem separate_of_builds (hs : e.scheduler.Sound) {b : ExecutionBatch} (hb : e.output.Builds b) :
    b.Separate := by
  have htables := (scheduled_sound hs).wf.blockTables_nodup (output_eq_active hs) (output_nodup hs)
  rw [ExecutionBatch.Separate, hb.entries, SchedulerOutput.entries]
  simpa [List.flatMap_map, Sequence.prefillEntry, Sequence.feedEntry, Sequence.decodeEntry] using
    htables

/-! ## A batch that fails -/

/-- The engine after a failed batch. -/
def batchFailed (e : InferenceEngine σ τ δ) (pipeline : BatchExecutionPipeline σ)
    (reason : String) : InferenceEngine σ τ δ :=
  { e.scheduled with
    scheduler := e.scheduled.scheduler.failSequences e.output.seqIds reason
    executionPipeline := pipeline }

variable {pipeline : BatchExecutionPipeline σ} {reason : String}

theorem batchFailed_removed (hs : e.scheduler.Sound) (pipeline : BatchExecutionPipeline σ)
    (reason : String) :
    e.scheduled.scheduler.RemovedAll (e.output.seqIds.filterMap fun id =>
      (e.scheduled.scheduler.active id).map fun seq => (id, seq.request.fail reason))
      (e.batchFailed pipeline reason).scheduler :=
  failSequences_removedAll (scheduled_sound hs).wf (output_nodup hs) (output_active hs) reason

theorem batchFailed_keys (hs : e.scheduler.Sound) :
    (e.output.seqIds.filterMap fun id => (e.scheduled.scheduler.active id).map fun seq =>
      (id, seq.request.fail reason)).map Prod.fst = e.output.seqIds :=
  filterMap_active_fst (output_active hs)

theorem batchFailed_keeps (hs : e.scheduler.Sound) (hid : r.id ∉ e.output.seqIds)
    (hk : e.scheduled.Keeps r place) : (e.batchFailed pipeline reason).Keeps r place := by
  refine hk.of_same (fun _ => ((batchFailed_removed hs pipeline reason).holds_of_not_mem ?_).symm) rfl
  rwa [batchFailed_keys hs]

theorem batchFailed_holdsAt {seq : Sequence} {d : δ} (hs : e.scheduler.Sound)
    (hid : r.id ∈ e.output.seqIds) (hseq : e.scheduled.scheduler.active r.id = some seq)
    (hd : e.decoders[r.id]? = some d) :
    (e.batchFailed pipeline reason).HoldsAt r (.ended (seq.request.fail reason) (some d)) := by
  refine ⟨(batchFailed_removed hs pipeline reason).holds_of_mem ?_, hd⟩
  exact List.mem_filterMap.2 ⟨r.id, hid, by rw [hseq]; rfl⟩

theorem batchFailed_idle (hs : e.scheduler.Sound) (hidle : e.scheduler.prefillSequences = ∅) :
    (e.batchFailed pipeline reason).scheduler.prefillSequences = ∅ := by
  rw [IdMap.eq_empty_iff]
  intro k
  rw [(batchFailed_removed hs pipeline reason).prefill, batchFailed_keys hs]
  split
  · rfl
  · next hk =>
      cases h : e.scheduled.scheduler.prefillSequences[k]? with
      | none => rfl
      | some seq => exact absurd (prefill_mem_output hs hidle h) hk

/-- Every sequence of a failed batch is terminal afterwards. -/
theorem batchFailed_completed (hs : e.scheduler.Sound) (h : e.output.isEmpty = false)
    (pipeline : BatchExecutionPipeline σ) (reason : String) :
    (e.batchFailed pipeline reason).scheduler.completedRequests ≠ [] := by
  obtain ⟨id, hid⟩ := List.exists_mem_of_ne_nil _ (SchedulerOutput.seqIds_ne_nil h)
  obtain ⟨seq, hseq⟩ := output_active hs id hid
  have hended : (id, seq.request.fail reason) ∈
      (e.batchFailed pipeline reason).scheduler.completedRequests := by
    rw [(batchFailed_removed hs pipeline reason).completed]
    refine List.mem_append_right _ (List.mem_filterMap.2 ⟨id, hid, ?_⟩)
    rw [hseq]
    rfl
  exact List.ne_nil_of_mem hended

theorem batchFailed_moves (hs : e.scheduler.Sound) (pipeline : BatchExecutionPipeline σ)
    (reason : String) : Moves e.scheduler (e.batchFailed pipeline reason).scheduler :=
  (schedule_moves hs.wf).trans (failSequences_moves _ _ _)

end InferenceEngine

theorem Place.Scheduled.live {δ : Type} {config : EngineConfig} {r : Request} {place : Place δ}
    {seq : Sequence} {entry : BatchEntry} {d : δ} (h : place.Scheduled config r seq entry d)
    (reason : String) :
    ∃ req, place.Live r req d ∧ req.fail reason = seq.request.fail reason := by
  cases h with
  | start _ _ => exact ⟨r, .waiting d, rfl⟩
  | step _ hgrown =>
      rcases hgrown with ⟨-, rfl⟩ | ⟨-, ref, rfl⟩
      · exact ⟨_, .running _ d, rfl⟩
      · exact ⟨_, .running _ d, rfl⟩

namespace Session

variable {σ τ δ : Type} [IncrementalDecoder δ] [TokenizerTrait τ δ] {x : Setting τ}
  {answer : List TokenId → TokenId → Prop} {R : σ → Fed → Prop} {s s' : Session σ τ δ}
  {r : Request} {w w' : Course δ}

/-- A failed batch, whether or not it was sent. -/
theorem fail_stage (hs : s.engine.scheduler.Sound) (hconfig : s.engine.scheduler.config = x.config)
    (hidle : s.engine.scheduler.prefillSequences = ∅) {pipeline : BatchExecutionPipeline σ}
    (reason : String) (sent : Bool)
    (hentries : ∀ id, entriesOf pipeline.calls id = entriesOf s.calls id ++
      if sent then s.engine.output.entries.filter fun entry => entry.seqId = id else [])
    (htokens : ∀ id, tokensOf pipeline.calls id = tokensOf s.calls id)
    (hbatches : ∀ b ∈ batchesOf pipeline.calls, b ∈ batchesOf s.calls ∨ b.Separate)
    (hfed : ∀ fed, R s.engine.executionPipeline.gpuExecutor fed →
      ∃ fed', R pipeline.gpuExecutor fed' ∧ ∀ id ∉ s.engine.output.seqIds, fed' id = fed id) :
    Stage x answer R s (s.withEngine (s.engine.batchFailed pipeline reason)) := by
  have hmoves := InferenceEngine.batchFailed_moves hs pipeline reason
  have he := Moves.evolves hs.wf hmoves
  have hunlisted : ∀ id, id ∉ s.engine.output.seqIds →
      entriesOf pipeline.calls id = entriesOf s.calls id := by
    intro id hid
    rw [hentries, ← s.engine.output.entries_seqIds] at *
    rw [filter_key_nil hid, ite_self, List.append_nil]
  refine ⟨rfl, he.config, hs.moves hmoves, InferenceEngine.batchFailed_idle hs hidle, rfl,
    he.nextSeqId, rfl, he.ids.append_right _, ?_, hbatches, ?_⟩
  · intro id hid hd
    exact ⟨hd, hunlisted id fun h => hid (InferenceEngine.mem_ids_of_listed hs h), htokens id, rfl⟩
  · intro fed hR
    obtain ⟨fed', hR', hsame⟩ := hfed fed hR
    refine ⟨fed', hR', fun r w _ _ ht hf => ?_⟩
    rcases InferenceEngine.place_of_schedule hs ht.place with
      ⟨hid, hk⟩ | ⟨seq, entry, d, hsched, hlists, hid, hseq, hd⟩
    · exact ht.keep (InferenceEngine.batchFailed_keeps hs hid hk) rfl (hunlisted _ hid)
        (htokens _) rfl hf (hsame _ hid)
    · have hmem : r.id ∈ s.engine.output.seqIds := hid ▸ hlists.mem_seqIds
      have hended : (s.engine.batchFailed pipeline reason).HoldsAt r
          (.ended (seq.request.fail reason) (some d)) :=
        InferenceEngine.batchFailed_holdsAt hs hmem hseq hd
      rw [hconfig] at hsched
      cases sent with
      | true =>
          refine ⟨_, .single (.fail reason hsched), ⟨hended, ?_, ?_, ht.generated.trans
            (htokens _).symm, ht.texts⟩, ?_⟩
          · rintro report ⟨⟩
          · rw [withEngine, calls]
            refine Eq.trans ?_ (hentries r.id).symm
            rw [if_pos rfl, ← hid, hlists.filter_entries (InferenceEngine.output_nodup hs), hid,
              ht.entries]
          · rintro _ _ ⟨⟩
      | false =>
          obtain ⟨req, hlive, heq⟩ := hsched.live reason
          rw [← heq] at hended
          refine ⟨_, .single (.abort reason hlive), ⟨hended, ?_, ?_, ht.generated.trans
            (htokens _).symm, ht.texts⟩, ?_⟩
          · rintro report ⟨⟩
          · refine ht.entries.trans (Eq.trans ?_ (hentries r.id).symm)
            simp
          · rintro _ _ ⟨⟩

end Session

end PagedServing
