import PagedServing.Engine.Answers
import PagedServing.Engine.Runs
import PagedServing.Library.LabelledLog

/-! # One step, from one request

Between its batch and the collection a step feeds every generated token to the decoder of
its request. What that does to a request depends on its own row of the answer alone.
-/

namespace PagedServing

open Scheduler Relation LabelledLog

/-! ## Rows in the log -/

/-- The answer of a call, when it passes the check. -/
def BackendCall.accepted : BackendCall → Option ExecutionOutput
  | .execute b (.ok o) =>
      match validateExecutionOutput b o with
      | .ok _ => some o
      | .error _ => none
  | _ => none

/-- The rows that the backend has answered with for one sequence. -/
def rowsOf (calls : List BackendCall) (id : SeqId) : List OutputRow :=
  under id ((calls.filterMap BackendCall.accepted).flatMap ExecutionOutput.rows)

theorem rowsOf_append (calls more : List BackendCall) (id : SeqId) :
    rowsOf (calls ++ more) id = rowsOf calls id ++ rowsOf more id := by
  simp [rowsOf]

private theorem accepted_rows (call : BackendCall) :
    call.rows = (call.accepted.toList.flatMap ExecutionOutput.rows).map
      fun p => (p.1, p.2.token) := by
  cases call with
  | sequencesFinished ids => rfl
  | execute b reply =>
      cases reply with
      | error err => rfl
      | ok o =>
          rw [BackendCall.rows, BackendCall.accepted]
          cases hvalid : validateExecutionOutput b o with
          | error err => rfl
          | ok u =>
              have hlen : o.nextTokens.length = o.seqIds.length := by
                simp only [validateExecutionOutput, malformedOutput] at hvalid
                split_ifs at hvalid with hlen
                exact not_not.1 hlen
              simpa using (ExecutionOutput.rows_tokens hlen).symm

/-- The tokens of a sequence are those of its rows. -/
theorem tokensOf_eq_rowsOf (calls : List BackendCall) (id : SeqId) :
    tokensOf calls id = (rowsOf calls id).map (·.token) := by
  have hrows : calls.flatMap BackendCall.rows =
      ((calls.filterMap BackendCall.accepted).flatMap ExecutionOutput.rows).map
        fun p => (p.1, p.2.token) := by
    induction calls with
    | nil => rfl
    | cons call rest ih =>
      rw [List.flatMap_cons, ih, accepted_rows, List.filterMap_cons]
      cases call.accepted <;> simp
  rw [tokensOf, hrows, rowsOf]
  exact under_map (fun _ (row : OutputRow) => row.token) id _

theorem Session.generated_length {σ τ δ : Type} (s : Session σ τ δ) (id : RequestId) :
    (s.generated id).length = (rowsOf s.calls id).length := by
  rw [generated, tokensOf_eq_rowsOf, List.length_map]

namespace Attempts

variable {σ : Type} {p p' : BatchExecutionPipeline σ} {b : ExecutionBatch}
  {output : ExecutionOutput}

private theorem rowsOf_timeouts (n : Nat) (id : SeqId) :
    rowsOf (List.replicate n (.execute b (.error .gpuTimeout))) id = [] := by
  have hnone : (List.replicate n (BackendCall.execute b (.error .gpuTimeout))).filterMap
      BackendCall.accepted = [] := by
    rw [List.filterMap_eq_nil_iff]
    intro call hcall
    rw [List.eq_of_mem_replicate hcall]
    rfl
  rw [rowsOf, hnone]
  rfl

theorem rowsOf_ok (h : Attempts p b (.ok output) p') (id : SeqId) :
    rowsOf p'.calls id = rowsOf p.calls id ++ under id output.rows := by
  obtain ⟨n, reply, hcalls, hresult⟩ := h.calls
  obtain ⟨rfl, hvalid⟩ := (hresult output).1 rfl
  rw [hcalls, rowsOf_append, rowsOf_append, rowsOf_timeouts, List.nil_append]
  simp [rowsOf, BackendCall.accepted, hvalid]

theorem rowsOf_error {err : EngineError} (h : Attempts p b (.error err) p') (id : SeqId) :
    rowsOf p'.calls id = rowsOf p.calls id := by
  obtain ⟨n, reply, hcalls, hresult⟩ := h.calls
  have hnone : (BackendCall.execute b reply).accepted = none := by
    cases reply with
    | error e => rfl
    | ok output =>
        cases hvalid : validateExecutionOutput b output with
        | ok _ => exact absurd ((hresult output).2 ⟨rfl, hvalid⟩) (by simp)
        | error _ => simp [BackendCall.accepted, hvalid]
  rw [hcalls, rowsOf_append, rowsOf_append, rowsOf_timeouts, List.nil_append]
  simp [rowsOf, hnone]

end Attempts

/-! ## The request of an id -/

namespace Scheduler

variable {s s' : Scheduler} {id : SeqId} {held : Held}

theorem getRequestById_of_holds (hs : s.Sound) (h : s.Holds id held) :
    s.getRequestById id = some held.request := by
  have hactive := hs.wf.active_of_holds h
  cases held with
  | pending r => exact getRequestById_of_pending hs.wf hs.labelled h
  | prefill seq => exact getRequestById_of_active hs.wf hs.labelled hactive
  | decode seq => exact getRequestById_of_active hs.wf hs.labelled hactive
  | completed r => exact getRequestById_of_completed hs.wf hs.labelled h

theorem getRequestById_eq_none (hs : s.Sound) (h : id ∉ s.ids) : s.getRequestById id = none := by
  have hpending : ∀ p ∈ s.pendingQueue, p.seqId ≠ id := fun p hp heq =>
    h (heq ▸ mem_ids_iff.2 ⟨_, .pending hp⟩)
  have hcompleted : s.completedRequests.find? (fun r => r.2.id = id) = none := by
    rw [List.find?_eq_none]
    intro r hr heq
    rw [decide_eq_true_eq, hs.labelled.completed r hr] at heq
    exact h (heq ▸ mem_ids_iff.2 ⟨_, .completed hr⟩)
  simp [getRequestById, find?_pending_eq_none hs.labelled hpending,
    find?_active_eq_none hs.wf hs.labelled (active_none_of_not_mem_ids h), hcompleted]

/-- What an id is held as decides which request it finds. -/
theorem getRequestById_congr (hs : s.Sound) (hs' : s'.Sound)
    (h : ∀ held, s.Holds id held ↔ s'.Holds id held) :
    s'.getRequestById id = s.getRequestById id := by
  by_cases hid : id ∈ s.ids
  · obtain ⟨held, hheld⟩ := mem_ids_iff.1 hid
    rw [getRequestById_of_holds hs hheld, getRequestById_of_holds hs' ((h held).1 hheld)]
  · have hid' : id ∉ s'.ids := by
      rwa [mem_ids_iff, ← exists_congr h, ← mem_ids_iff]
    rw [getRequestById_eq_none hs hid, getRequestById_eq_none hs' hid']

end Scheduler

namespace InferenceEngine

variable {σ τ δ : Type} [IncrementalDecoder δ] {e : InferenceEngine σ τ δ}

/-! ## Chunks with their logprobs -/

/-- What the loop over the decoders streams for one token. -/
def pushedChunks (e : InferenceEngine σ τ δ) (g : RequestId × TokenId) :
    List (String × Option TokenLogprobs) :=
  (pushText e.decoders[g.1]? g.2).map fun text => (text, e.tokenLogprobs g.1)

private theorem pushToken_chunk (e : InferenceEngine σ τ δ) (acc : List StepChunk)
    (g : RequestId × TokenId) :
    (pushToken (e, acc) g).2 = acc ++ (e.pushedChunks g).map (Prod.mk g.1) := by
  obtain ⟨id, token⟩ := g
  rw [pushToken, pushedChunks]
  cases hd : e.decoders[id]? with
  | none => simp [pushText]
  | some d =>
      dsimp only
      rcases hpush : (IncrementalDecoder.push d token).1 with message | _ | text
      · simp [pushText, hpush, pushedText]
      · simp [pushText, hpush, pushedText]
      · by_cases htext : text = "" <;> simp [pushText, hpush, pushedText, htext]

/-- The turn of another request leaves the chunk of a token as it is. -/
private theorem Pushed.pushedChunks_ne {e' : InferenceEngine σ τ δ} {chunks : List StepChunk}
    {g g' : RequestId × TokenId} (hs : e.scheduler.Sound) (h : e.Pushed [g] e' chunks)
    (hne : g.1 ≠ g'.1) : e'.pushedChunks g' = e.pushedChunks g' := by
  have hdecoder : e'.decoders[g'.1]? = e.decoders[g'.1]? := by
    rw [h.decoders, IdMap.lookup_cons_ne hne]
    rfl
  have hends : g'.1 ∉ ([g].filterMap fun g => ((e.scheduler.active g.1).bind fun seq =>
      pushFailure e.decoders[g.1]? g.2 seq.request).map (Prod.mk g.1)).map Prod.fst := by
    intro hmem
    obtain ⟨p, hp, heq⟩ := List.mem_map.1 hmem
    obtain ⟨g₀, hg₀, hp⟩ := List.mem_filterMap.1 hp
    obtain ⟨q, -, rfl⟩ := Option.map_eq_some_iff.1 hp
    rw [List.mem_singleton.1 hg₀] at heq
    exact hne heq
  have hrequest : e'.scheduler.getRequestById g'.1 = e.scheduler.getRequestById g'.1 :=
    getRequestById_congr hs (hs.moves h.removed.moves) fun _ =>
      (h.removed.holds_of_not_mem hends).symm
  rw [pushedChunks, pushedChunks, hdecoder, tokenLogprobs, tokenLogprobs, hrequest]

/-- Each token is decoded, and its logprobs are read, as if the others were not there. -/
theorem foldl_pushToken_chunks {generated : List (RequestId × TokenId)} (hs : e.scheduler.Sound)
    (hnodup : (generated.map Prod.fst).Nodup)
    (hp : ∀ g ∈ generated, ∀ p ∈ e.scheduler.pendingQueue, p.seqId ≠ g.1)
    (acc : List StepChunk) :
    (generated.foldl pushToken (e, acc)).2 =
      acc ++ generated.flatMap fun g => (e.pushedChunks g).map (Prod.mk g.1) := by
  induction generated generalizing e acc with
  | nil => simp
  | cons g rest ih =>
    obtain ⟨hid, hrest⟩ := List.nodup_cons.1 hnodup
    obtain ⟨chunks, -, hone⟩ := pushToken_pushed hs (hp g (by simp)) acc
    have hpending := hone.removed.pending
    have htail : (rest.flatMap fun g' =>
        ((pushToken (e, acc) g).1.pushedChunks g').map (Prod.mk g'.1)) =
        rest.flatMap fun g' => (e.pushedChunks g').map (Prod.mk g'.1) := by
      refine List.flatMap_congr fun g' hg' => ?_
      have hne : g.1 ≠ g'.1 := fun heq => hid (List.mem_map.2 ⟨g', hg', heq.symm⟩)
      rw [hone.pushedChunks_ne hs hne]
    rw [List.foldl_cons, List.flatMap_cons, ← List.append_assoc, ← pushToken_chunk, ← htail]
    exact ih (hs.moves hone.removed.moves) hrest
      (fun g' hg' => by rw [hpending]; exact hp g' (by simp [hg'])) _

end InferenceEngine

/-! ## The turn of a request -/

/-- The logprobs that a chunk of this request carries. -/
def Request.lastLogprobs (req : Request) : Option TokenLogprobs :=
  if req.params.logprobs.isSome then req.logprobs.getLast? else none

section Feeds

variable {τ δ : Type} [IncrementalDecoder δ] [TokenizerTrait τ δ]

/-- The decoder that the token of a served sequence goes to: none after a stop hit. -/
def Setting.feeds (x : Setting τ) (seq : Sequence) (decoder : δ) : Option δ :=
  if (seq.request.stopKeep x.tokenizer).isSome then none else some decoder

/-- What the token of a served sequence streams. -/
def Setting.pushedChunks (x : Setting τ) (seq : Sequence) (decoder : δ) (token : TokenId) :
    List (String × Option TokenLogprobs) :=
  (InferenceEngine.pushText (x.feeds seq decoder) token).map fun text => (text, seq.request.lastLogprobs)

end Feeds

namespace InferenceEngine

variable {σ τ δ : Type} {e : InferenceEngine σ τ δ}

/-- A served request that no stop string ends is still found with its last row. -/
theorem tokenLogprobs_of_served {e' : InferenceEngine σ τ δ} {cuts : List (RequestId × Nat)}
    {r : Request} {seq : Sequence} {d : δ} (hs : e.scheduler.Sound) (h : e.Served r.id seq)
    (hd : e.decoders[r.id]? = some d) (hstop : e.Stopped cuts e')
    (hid : r.id ∉ cuts.map Prod.fst) : e'.tokenLogprobs r.id = seq.request.lastLogprobs := by
  have hs' := hs.moves hstop.removed.moves
  rw [Served] at h
  rw [tokenLogprobs]
  split at h
  next =>
    have hended : e.HoldsAt r (.ended { seq.request with state := .completed } (some d)) := ⟨h, hd⟩
    rw [getRequestById_of_holds hs' (hstop.holdsAt_of_not_mem hid hended).1]
    rfl
  next =>
    have hrunning : e.HoldsAt r (.running seq d) := ⟨h, hd⟩
    rw [getRequestById_of_holds hs' (hstop.holdsAt_of_not_mem hid hrunning).1]
    rfl

variable [GPUExecutorTrait σ]

/-- The tokens of an answered batch are for distinct requests that are not pending. -/
theorem served_distinct {b : ExecutionBatch} {output : ExecutionOutput}
    {pipeline : BatchExecutionPipeline σ} (hs : e.scheduler.Sound)
    (h : e.executionPipeline.Sent e.output b (.ok output) pipeline) :
    ((generatedTokens e.output output).map Prod.fst).Nodup ∧
      ∀ g ∈ generatedTokens e.output output,
        ∀ p ∈ (e.updated pipeline output).scheduler.pendingQueue, p.seqId ≠ g.1 := by
  have hkeys := keys_generated hs h
  refine ⟨hkeys ▸ (answered_of_sent hs h).nodup, fun g hg p hp => ?_⟩
  rw [(updated_updated hs h).pending] at hp
  have hid : g.1 ∈ output.seqIds := hkeys ▸ List.mem_map_of_mem hg
  obtain ⟨seq, hseq⟩ := output_active hs g.1 ((mem_output_iff hs h).1 hid)
  exact not_pending_of_active (scheduled_sound hs).wf hseq p hp

variable [TokenizerTrait τ δ]

/-- The engine and the generated tokens when a step comes to the decoders. -/
def pushing (e : InferenceEngine σ τ δ) : InferenceEngine σ τ δ × List (RequestId × TokenId) :=
  if e.output.isEmpty then (e.scheduled, [])
  else
    match e.executionPipeline.execute e.output with
    | (.ok output, pipeline) =>
        ((e.updated pipeline output).applyStopSequences (generatedTokens e.output output),
          generatedTokens e.output output)
    | (.error err, pipeline) => (e.batchFailed pipeline err.display, [])

/-- No batch, a failed one or an answered one. -/
theorem pushing_cases
    (hlen : ∀ seq ∈ e.output.prefillSequences, seq.request.inputTokens.length < 2 ^ 32) :
    (e.output.isEmpty = true ∧ e.pushing = (e.scheduled, [])) ∨
      (∃ pipeline reason, e.pushing = (e.batchFailed pipeline reason, []) ∧
        ∀ id, rowsOf pipeline.calls id = rowsOf e.executionPipeline.calls id) ∨
      ∃ b output pipeline, e.executionPipeline.Sent e.output b (.ok output) pipeline ∧
        e.pushing = ((e.updated pipeline output).applyStopSequences
          (generatedTokens e.output output), generatedTokens e.output output) := by
  cases hempty : e.output.isEmpty with
  | true => exact .inl ⟨rfl, by rw [pushing, if_pos hempty]⟩
  | false =>
      refine .inr ?_
      rw [pushing, if_neg (by simp [hempty])]
      rcases BatchExecutionPipeline.execute_cases (p := e.executionPipeline) hempty hlen with
        ⟨err, hrun⟩ | ⟨b, hsent⟩
      · rw [hrun]
        exact .inl ⟨_, _, rfl, fun _ => rfl⟩
      · rcases hrun : e.executionPipeline.execute e.output with ⟨result, pipeline⟩
        rw [hrun] at hsent
        cases result with
        | ok output => exact .inr ⟨b, output, pipeline, hsent, rfl⟩
        | error err => exact .inl ⟨_, _, rfl, hsent.attempts.rowsOf_error⟩

variable [IncrementalDecoder δ]

theorem advance_eq_pushing (e : InferenceEngine σ τ δ) :
    e.advance = e.pushing.2.foldl pushToken (e.pushing.1, []) := by
  rw [advance, pushing]
  split
  · rfl
  · rcases e.executionPipeline.execute e.output with ⟨err | output, pipeline⟩ <;> rfl

/-- The loop over the decoders, from the engine it starts with. -/
theorem pushing_spec (hs : e.scheduler.Sound)
    (hlen : ∀ seq ∈ e.output.prefillSequences, seq.request.inputTokens.length < 2 ^ 32) :
    (e.pushing.2.map Prod.fst).Nodup ∧ e.pushing.1.Pushed e.pushing.2 e.advance.1 e.advance.2 ∧
      e.advance.2 = e.pushing.2.flatMap fun g => (e.pushing.1.pushedChunks g).map (Prod.mk g.1) := by
  have hloop : e.pushing.1.scheduler.Sound → (e.pushing.2.map Prod.fst).Nodup →
      (∀ g ∈ e.pushing.2, ∀ p ∈ e.pushing.1.scheduler.pendingQueue, p.seqId ≠ g.1) →
      e.pushing.1.Pushed e.pushing.2 e.advance.1 e.advance.2 ∧ e.advance.2 =
        e.pushing.2.flatMap fun g => (e.pushing.1.pushedChunks g).map (Prod.mk g.1) := by
    intro hsound hnodup hp
    obtain ⟨chunks, hacc, hpush⟩ := foldl_pushToken hsound hnodup hp []
    have hchunks := foldl_pushToken_chunks hsound hnodup hp []
    rw [List.nil_append] at hacc hchunks
    rw [advance_eq_pushing]
    exact ⟨hacc ▸ hpush, hchunks⟩
  rcases pushing_cases hlen with ⟨-, heq⟩ | ⟨pipeline, reason, heq, -⟩ |
    ⟨b, output, pipeline, hsent, heq⟩
  · exact ⟨by simp [heq], hloop (heq ▸ scheduled_sound hs) (by simp [heq]) (by simp [heq])⟩
  · exact ⟨by simp [heq], hloop (heq ▸ hs.moves (batchFailed_moves hs pipeline reason))
      (by simp [heq]) (by simp [heq])⟩
  · obtain ⟨hnodup, hp⟩ := served_distinct hs hsent
    have hstop := (settled_stages (updated_sound hs hsent) hnodup hp).1
    rw [heq] at hloop ⊢
    exact ⟨hnodup, hloop ((updated_sound hs hsent).moves hstop.removed.moves) hnodup
      (hstop.removed.pending ▸ hp)⟩

end InferenceEngine

namespace Session

variable {σ τ δ : Type} [GPUExecutorTrait σ] [IncrementalDecoder δ] [TokenizerTrait τ δ]
  {x : Setting τ} {answer : List TokenId → TokenId → Prop} {R : σ → Fed → Prop}
  {s : Session σ τ δ} {r : Request} {place : Place δ}

/-- What a step does to a request before the collection. -/
inductive Turn (x : Setting τ) (s : Session σ τ δ) (r : Request) (place : Place δ) : Prop
  | passed (hid : r.id ∉ s.engine.pushing.2.map Prod.fst)
      (hplace : s.engine.advance.1.Keeps r place)
      (hrows : rowsOf s.advance.calls r.id = rowsOf s.calls r.id)
  | served {seq : Sequence} {entry : BatchEntry} {d : δ} {row : OutputRow}
      (hsched : place.Scheduled x.config r seq entry d)
      (hmem : (r.id, row.token) ∈ s.engine.pushing.2)
      (hdecoder : s.engine.pushing.1.decoders[r.id]? = x.feeds (seq.next row) d)
      (hchunks : s.engine.pushing.1.pushedChunks (r.id, row.token) =
        x.pushedChunks (seq.next row) d row.token)
      (hplace : s.engine.advance.1.HoldsAt r (x.settle (seq.next row) d row.token).1)
      (hrows : rowsOf s.advance.calls r.id = rowsOf s.calls r.id ++ [row])

private theorem turn_served {b : ExecutionBatch} {output : ExecutionOutput}
    {pipeline : BatchExecutionPipeline σ} (hi : s.Inv answer R x)
    (h : s.engine.executionPipeline.Sent s.engine.output b (.ok output) pipeline)
    (heq : s.engine.pushing = ((s.engine.updated pipeline output).applyStopSequences
      (InferenceEngine.generatedTokens s.engine.output output),
        InferenceEngine.generatedTokens s.engine.output output))
    (hplace : s.engine.HoldsAt r place) : Turn x s r place := by
  have hs := hi.sound
  have hconfig : s.engine.scheduler.config = s.engine.config :=
    hi.config.trans (congrArg Setting.config hi.setting).symm
  have ha := InferenceEngine.answered_of_sent hs h
  have hkeys := InferenceEngine.keys_generated hs h
  have hgen := InferenceEngine.generated_updated hs h
  have hsound := InferenceEngine.updated_sound hs h
  obtain ⟨hnodup, hp⟩ := InferenceEngine.served_distinct hs h
  have hstop := (InferenceEngine.settled_stages hsound hnodup hp).1
  have hpush := (InferenceEngine.pushing_spec hs hi.prompts).2.1
  have hadvance : s.engine.advance.1.executionPipeline = pipeline := by
    rw [hpush.rest.executionPipeline, heq]
    exact hstop.rest.executionPipeline
  have hcalls : rowsOf s.advance.calls r.id = rowsOf s.calls r.id ++ under r.id output.rows :=
    (congrArg (fun p => rowsOf p.calls r.id) hadvance).trans (h.attempts.rowsOf_ok r.id)
  have hrowKeys := ExecutionOutput.keys_rows ha.tokens
  rw [heq] at hpush
  rcases InferenceEngine.place_of_schedule hs hplace with
    ⟨hid, hk⟩ | ⟨seq, entry, d, hsched, hlists, hid, hseq, hd⟩
  · have hno : r.id ∉ output.seqIds := fun hmem =>
      hid ((InferenceEngine.mem_output_iff hs h).1 hmem)
    have hno' : r.id ∉ (InferenceEngine.generatedTokens s.engine.output output).map Prod.fst := by
      rwa [hkeys]
    refine .passed (by rwa [heq]) ?_ ?_
    · exact ((InferenceEngine.updated_keeps hs h hid hk).map fun _ =>
        hstop.holdsAt_of_not_mem fun hmem => hno' (InferenceEngine.mem_toStop.1 hmem).1).map
          fun _ => hpush.holdsAt_of_not_mem hno'
    · rw [hcalls, under_eq_nil (by rwa [hrowKeys]), List.append_nil]
  · have hmem : r.id ∈ output.seqIds :=
      (InferenceEngine.mem_output_iff hs h).2 (hid ▸ hlists.mem_seqIds)
    obtain ⟨row, hrow, hpair⟩ := ExecutionOutput.exists_row ha.tokens ha.nodup hmem
    have hserved := InferenceEngine.updated_served hs hconfig h hrow hseq
    have hcut := InferenceEngine.stopCut_of_served hsound hserved
    have htokenizer : (s.engine.updated pipeline output).tokenizer = x.tokenizer :=
      congrArg Setting.tokenizer hi.setting
    rw [htokenizer] at hcut
    have hmem' : r.id ∈ (InferenceEngine.generatedTokens s.engine.output output).map Prod.fst := by
      rwa [hkeys]
    have hdecoder : s.engine.pushing.1.decoders[r.id]? = x.feeds (seq.next row) d := by
      rw [heq, Setting.feeds, hstop.decoders]
      refine if_congr ?_ rfl hd
      rw [InferenceEngine.mem_toStop, hcut, and_iff_right hmem', Option.isSome_iff_exists]
    have hpushed : (r.id, row.token) ∈ s.engine.pushing.2 := by
      rw [heq, hgen]
      exact hpair
    rw [hi.config] at hsched
    refine .served hsched hpushed hdecoder ?_ ?_ ?_
    · rw [InferenceEngine.pushedChunks, Setting.pushedChunks, hdecoder]
      cases hkeep : (seq.next row).request.stopKeep x.tokenizer with
      | some keep => simp [Setting.feeds, hkeep, InferenceEngine.pushText]
      | none =>
          rw [heq, InferenceEngine.tokenLogprobs_of_served hsound hserved hd hstop]
          rw [InferenceEngine.mem_toStop, hcut, hkeep]
          simp
    · have hsettle := (InferenceEngine.holdsAt_settle hsound hnodup (hgen ▸ hpair) hserved hd hstop
        hpush).1
      have hsetting : (s.engine.updated pipeline output).setting = x := hi.setting
      rwa [hsetting] at hsettle
    · rw [hcalls, under_of_nodup (by rw [hrowKeys]; exact ha.nodup)
        (IdMap.mem_of_lookup_eq_some hrow)]

theorem Inv.turn (hi : s.Inv answer R x) (hplace : s.engine.HoldsAt r place) :
    Turn x s r place := by
  have hs := hi.sound
  have hpass : ∀ e, s.engine.pushing = (e, []) → e.Keeps r place →
      rowsOf e.executionPipeline.calls r.id = rowsOf s.calls r.id → Turn x s r place := by
    intro e heq hkeeps hrows
    have hadvance : s.engine.advance = (e, []) := by
      rw [InferenceEngine.advance_eq_pushing, heq]
      rfl
    refine .passed (by simp [heq]) (by rwa [hadvance]) ?_
    rw [Session.advance, hadvance]
    exact hrows
  rcases InferenceEngine.pushing_cases hi.prompts with
    ⟨hempty, heq⟩ | ⟨pipeline, reason, heq, hrows⟩ | ⟨b, output, pipeline, hsent, heq⟩
  · refine hpass _ heq ?_ rfl
    rcases InferenceEngine.place_of_schedule hs hplace with ⟨-, hk⟩ | ⟨_, _, _, -, hlists, -⟩
    · exact hk
    · have hlisted := hlists.mem_seqIds
      rw [SchedulerOutput.seqIds_of_isEmpty hempty] at hlisted
      cases hlisted
  · refine hpass _ heq ?_ (hrows r.id)
    rcases InferenceEngine.place_of_schedule hs hplace with
      ⟨hid, hk⟩ | ⟨seq, entry, d, hsched, hlists, hid, hseq, hd⟩
    · exact InferenceEngine.batchFailed_keeps hs hid hk
    · obtain ⟨req, hlive, hfail⟩ := hsched.live reason
      have hended : (s.engine.batchFailed pipeline reason).HoldsAt r
          (.ended (seq.request.fail reason) (some d)) :=
        InferenceEngine.batchFailed_holdsAt hs (hid ▸ hlists.mem_seqIds) hseq hd
      exact .inr ⟨req, d, reason, hlive, hfail ▸ hended⟩
  · exact turn_served hi hsent heq hplace

end Session

end PagedServing
