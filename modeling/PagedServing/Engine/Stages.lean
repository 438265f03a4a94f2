import PagedServing.Engine.CallLog
import PagedServing.Engine.Course
import PagedServing.Scheduler.Holding

/-! # The stages of a step, request by request

After a batch the engine applies stop sequences, pushes each token into its decoder
and collects what is terminal. Each stage is a loop over distinct request ids.
-/

namespace PagedServing

open Scheduler Relation

namespace InferenceEngine

variable {σ τ δ : Type} {e e' : InferenceEngine σ τ δ}

/-- Only the scheduler and the decoders differ. -/
structure SameRest (e e' : InferenceEngine σ τ δ) : Prop where
  config : e'.config = e.config
  tokenizer : e'.tokenizer = e.tokenizer
  executionPipeline : e'.executionPipeline = e.executionPipeline
  eosTokenId : e'.eosTokenId = e.eosTokenId
  nextRequestId : e'.nextRequestId = e.nextRequestId

theorem SameRest.refl (e : InferenceEngine σ τ δ) : e.SameRest e := ⟨rfl, rfl, rfl, rfl, rfl⟩

theorem SameRest.trans {e₁ e₂ e₃ : InferenceEngine σ τ δ} (h : e₁.SameRest e₂)
    (h' : e₂.SameRest e₃) : e₁.SameRest e₃ :=
  ⟨h'.config.trans h.config, h'.tokenizer.trans h.tokenizer,
    h'.executionPipeline.trans h.executionPipeline, h'.eosTokenId.trans h.eosTokenId,
    h'.nextRequestId.trans h.nextRequestId⟩

theorem SameRest.setting (h : e.SameRest e') : e'.setting = e.setting := by
  rw [InferenceEngine.setting, h.config, h.tokenizer, h.eosTokenId]
  rfl

/-! ## Stop sequences -/

/-- The effect of the stop hits `cuts` on every request. -/
structure Stopped (e : InferenceEngine σ τ δ) (cuts : List (RequestId × Nat))
    (e' : InferenceEngine σ τ δ) : Prop where
  rest : e.SameRest e'
  removed : e.scheduler.RemovedAll (cuts.filterMap fun cut =>
    ((e.scheduler.active cut.1).bind fun seq =>
      some { (seq.stopAt cut.2).request with state := .completed }).map (Prod.mk cut.1)) e'.scheduler
  decoders : ∀ a : Nat, e'.decoders[a]? =
    if a ∈ cuts.map Prod.fst then none else e.decoders[a]?

private theorem stopOne_fold (cuts : List (RequestId × Nat)) (e : InferenceEngine σ τ δ) :
    e.SameRest (cuts.foldl stopOne e) ∧
      (cuts.foldl stopOne e).scheduler =
        cuts.foldl (fun s cut => (s.completeByStopSequence cut.1 cut.2).2) e.scheduler ∧
      ∀ a : Nat, (cuts.foldl stopOne e).decoders[a]? =
        if a ∈ cuts.map Prod.fst then none else e.decoders[a]? := by
  induction cuts generalizing e with
  | nil => exact ⟨.refl e, rfl, by simp⟩
  | cons cut cuts ih =>
    obtain ⟨hrest, hscheduler, hdecoders⟩ := ih (e.stopOne cut)
    have hone : e.SameRest (e.stopOne cut) := ⟨rfl, rfl, rfl, rfl, rfl⟩
    refine ⟨hone.trans hrest, hscheduler, fun a => ?_⟩
    rw [List.foldl_cons, hdecoders]
    rcases eq_or_ne cut.1 a with rfl | hne
    · simp [stopOne]
    · have hmem : a ∈ (cut :: cuts).map Prod.fst ↔ a ∈ cuts.map Prod.fst := by
        rw [List.map_cons, List.mem_cons, or_iff_right]
        exact hne.symm
      simp only [stopOne, IdMap.get_erase_ne hne, hmem]

theorem foldl_stopOne {cuts : List (RequestId × Nat)} (hs : e.scheduler.Sound)
    (hnodup : (cuts.map Prod.fst).Nodup) : e.Stopped cuts (cuts.foldl stopOne e) := by
  obtain ⟨hrest, hscheduler, hdecoders⟩ := stopOne_fold cuts e
  refine ⟨hrest, ?_, hdecoders⟩
  rw [hscheduler]
  refine @foldl_removedAll e.scheduler (RequestId × Nat) Sound (fun _ _ => True) Sound.moves
    (fun s cut => (s.completeByStopSequence cut.1 cut.2).2) Prod.fst
    (fun cut seq => some { (seq.stopAt cut.2).request with state := .completed }) ?_ hs cuts hnodup
    fun _ _ => trivial
  intro s cut hs _
  cases h : s.active cut.1 with
  | none =>
      rw [completeByStopSequence_of_absent hs.wf hs.labelled h]
      exact .refl s
  | some seq => exact completeByStopSequence_removed hs.wf hs.labelled h cut.2

variable [IncrementalDecoder δ]

/-! ## Decoders -/

/-- What a failing decoder makes of the request it decodes for. -/
def pushFailure (decoder : Option δ) (token : TokenId) (req : Request) : Option Request :=
  match decoder.map fun d => (IncrementalDecoder.push d token).1 with
  | some (.error message) => some (req.fail (decodeFailed message))
  | _ => none

/-- What a decoder returns for a token. -/
def pushText (decoder : Option δ) (token : TokenId) : List String :=
  decoder.elim [] fun d => pushedText (IncrementalDecoder.push d token).1

/-- The effect of pushing the tokens of `generated` on every request. -/
structure Pushed (e : InferenceEngine σ τ δ) (generated : List (RequestId × TokenId))
    (e' : InferenceEngine σ τ δ) (chunks : List StepChunk) : Prop where
  rest : e.SameRest e'
  removed : e.scheduler.RemovedAll (generated.filterMap fun g =>
    ((e.scheduler.active g.1).bind fun seq =>
      pushFailure e.decoders[g.1]? g.2 seq.request).map (Prod.mk g.1)) e'.scheduler
  decoders : ∀ a : Nat, e'.decoders[a]? =
    match generated.lookup a with
    | some token => e.decoders[a]?.map fun d => (IncrementalDecoder.push d token).2
    | none => e.decoders[a]?
  texts : chunks.map (fun c => (c.1, c.2.1)) = generated.flatMap fun g =>
    (pushText e.decoders[g.1]? g.2).map (Prod.mk g.1)

theorem Pushed.nil (e : InferenceEngine σ τ δ) : e.Pushed [] e [] :=
  ⟨.refl e, .refl _, fun _ => rfl, rfl⟩

/-- A turn for one more request before all others. -/
theorem Pushed.cons {g : RequestId × TokenId} {generated : List (RequestId × TokenId)}
    {e₁ e₂ : InferenceEngine σ τ δ} {chunks₁ chunks₂ : List StepChunk}
    (hid : g.1 ∉ generated.map Prod.fst) (h : e.Pushed [g] e₁ chunks₁)
    (h' : e₁.Pushed generated e₂ chunks₂) : e.Pushed (g :: generated) e₂ (chunks₁ ++ chunks₂) := by
  have hne : ∀ x ∈ generated, g.1 ≠ x.1 := fun x hx heq => hid (heq ▸ List.mem_map_of_mem hx)
  have hkeep : ∀ a : Nat, g.1 ≠ a → e₁.scheduler.active a = e.scheduler.active a ∧
      e₁.decoders[a]? = e.decoders[a]? := by
    intro a ha
    constructor
    · rw [h.removed.active, if_neg]
      intro hmem
      obtain ⟨p, hp, rfl⟩ := List.mem_map.1 hmem
      obtain ⟨x, hx, hp⟩ := List.mem_filterMap.1 hp
      obtain ⟨r, -, rfl⟩ := Option.map_eq_some_iff.1 hp
      rw [List.mem_singleton.1 hx] at ha
      exact ha rfl
    · rw [h.decoders, IdMap.lookup_cons_ne ha]
      rfl
  refine ⟨h.rest.trans h'.rest, ?_, ?_, ?_⟩
  · have hall := h.removed.trans h'.removed
    have hfilter : (generated.filterMap fun x => ((e₁.scheduler.active x.1).bind fun seq =>
          pushFailure e₁.decoders[x.1]? x.2 seq.request).map (Prod.mk x.1)) =
        generated.filterMap fun x => ((e.scheduler.active x.1).bind fun seq =>
          pushFailure e.decoders[x.1]? x.2 seq.request).map (Prod.mk x.1) :=
      List.filterMap_congr fun x hx => by
        rw [(hkeep x.1 (hne x hx)).1, (hkeep x.1 (hne x hx)).2]
    rw [hfilter, ← List.filterMap_append] at hall
    exact hall
  · intro a
    rw [h'.decoders]
    rcases eq_or_ne g.1 a with rfl | ha
    · obtain ⟨id, token⟩ := g
      rw [IdMap.lookup_eq_none_of_not_mem hid, h.decoders, List.lookup_cons_self,
        List.lookup_cons_self]
    · rw [(hkeep a ha).2, IdMap.lookup_cons_ne ha]
  · rw [List.map_append, h.texts, h'.texts, List.flatMap_cons, List.flatMap_nil,
      List.append_nil, List.flatMap_cons]
    refine congrArg _ (List.flatMap_congr fun x hx => ?_)
    rw [(hkeep x.1 (hne x hx)).2]

theorem pushToken_pushed (hs : e.scheduler.Sound) {g : RequestId × TokenId}
    (hp : ∀ p ∈ e.scheduler.pendingQueue, p.seqId ≠ g.1) (acc : List StepChunk) :
    ∃ chunks, (pushToken (e, acc) g).2 = acc ++ chunks ∧
      e.Pushed [g] (pushToken (e, acc) g).1 chunks := by
  obtain ⟨id, token⟩ := g
  rw [pushToken]
  cases hd : e.decoders[id]? with
  | none =>
      refine ⟨[], (List.append_nil acc).symm, .refl e, ?_, ?_, ?_⟩
      · simpa [hd, pushFailure] using Scheduler.RemovedAll.refl e.scheduler
      · intro a
        rcases eq_or_ne id a with rfl | ha
        · simp [hd]
        · simp [IdMap.lookup_cons_ne ha]
      · simp [hd, pushText]
  | some d =>
      have hdecoders : ∀ a : Nat,
          (e.decoders.insert id (IncrementalDecoder.push d token).2)[a]? =
            match List.lookup a [(id, token)] with
            | some token => e.decoders[a]?.map fun d => (IncrementalDecoder.push d token).2
            | none => e.decoders[a]? := by
        intro a
        rw [IdMap.get_insert]
        rcases eq_or_ne id a with rfl | ha
        · simp [hd]
        · simp [IdMap.lookup_cons_ne ha, ha]
      dsimp only
      cases hpush : (IncrementalDecoder.push d token).1 with
      | error message =>
          refine ⟨[], (List.append_nil acc).symm, ⟨rfl, rfl, rfl, rfl, rfl⟩, ?_, hdecoders, ?_⟩
          · cases ha : e.scheduler.active id with
            | none =>
                simp only [failByRequestId_of_absent hs.wf hs.labelled ha hp]
                simpa [ha] using Scheduler.RemovedAll.refl e.scheduler
            | some seq =>
                have := failByRequestId_removed hs.wf hs.labelled ha (decodeFailed message)
                simpa [ha, hd, pushFailure, hpush] using this
          · simp [hd, pushText, hpush, pushedText]
      | ok pushed =>
          have hremoved : e.scheduler.RemovedAll ([(id, token)].filterMap fun g =>
              ((e.scheduler.active g.1).bind fun seq =>
                pushFailure e.decoders[g.1]? g.2 seq.request).map (Prod.mk g.1)) e.scheduler := by
            cases ha : e.scheduler.active id <;>
              simpa [ha, hd, pushFailure, hpush] using Scheduler.RemovedAll.refl e.scheduler
          cases pushed with
          | none =>
              refine ⟨[], (List.append_nil acc).symm, ⟨rfl, rfl, rfl, rfl, rfl⟩, hremoved,
                hdecoders, ?_⟩
              simp [hd, pushText, hpush, pushedText]
          | some text =>
              dsimp only
              by_cases htext : text = ""
              · refine ⟨[], by simp [htext], ⟨rfl, rfl, rfl, rfl, rfl⟩, hremoved, hdecoders, ?_⟩
                simp [hd, pushText, hpush, pushedText, htext]
              · refine ⟨[(id, text, e.tokenLogprobs id)], by simp [htext],
                  ⟨rfl, rfl, rfl, rfl, rfl⟩, hremoved, hdecoders, ?_⟩
                simp [hd, pushText, hpush, pushedText, htext]

theorem foldl_pushToken {generated : List (RequestId × TokenId)} (hs : e.scheduler.Sound)
    (hnodup : (generated.map Prod.fst).Nodup)
    (hp : ∀ g ∈ generated, ∀ p ∈ e.scheduler.pendingQueue, p.seqId ≠ g.1)
    (acc : List StepChunk) :
    ∃ chunks, (generated.foldl pushToken (e, acc)).2 = acc ++ chunks ∧
      e.Pushed generated (generated.foldl pushToken (e, acc)).1 chunks := by
  induction generated generalizing e acc with
  | nil => exact ⟨[], (List.append_nil acc).symm, .nil e⟩
  | cons g rest ih =>
    obtain ⟨hid, hrest⟩ := List.nodup_cons.1 hnodup
    obtain ⟨chunks₁, hacc, hone⟩ := pushToken_pushed hs (hp g (by simp)) acc
    have hpending := hone.removed.pending
    obtain ⟨chunks₂, hacc₂, hall⟩ := ih (hs.moves hone.removed.moves) hrest
      (fun x hx => by rw [hpending]; exact hp x (by simp [hx])) (pushToken (e, acc) g).2
    refine ⟨chunks₁ ++ chunks₂, ?_, ?_⟩
    · rw [List.foldl_cons, hacc₂, hacc, List.append_assoc]
    · exact .cons hid hone hall

/-! ## Collection -/

variable [TokenizerTrait τ δ]

theorem tailChunks_texts (requestId : RequestId) (decoder : Option δ) :
    (tailChunks requestId decoder).map (fun c => (c.1, c.2.1)) =
      (tailText decoder).map (Prod.mk requestId) := by
  cases decoder with
  | none => rfl
  | some d =>
      rw [tailChunks, tailText]
      cases (IncrementalDecoder.finish d).1 with
      | error message => rfl
      | ok last =>
          cases last with
          | none => rfl
          | some tail => by_cases htail : tail = "" <;> simp [pushedText, htail]

/-- A loop of collections, from engine `e`, with what it adds. -/
structure CollectedAll (e : InferenceEngine σ τ δ) (reqs : List Request)
    (e' : InferenceEngine σ τ δ) (results : List CompletedRequest) (tails : List StepChunk) :
    Prop where
  setting : e'.setting = e.setting
  nextRequestId : e'.nextRequestId = e.nextRequestId
  scheduler : e'.scheduler = e.scheduler
  executionPipeline : e'.executionPipeline = e.executionPipeline
  decoders : ∀ a : Nat, e'.decoders[a]? =
    if a ∈ reqs.map (·.id) then none else e.decoders[a]?
  results : results = reqs.map (·.report e.tokenizer e.eosTokenId)
  texts : tails.map (fun c => (c.1, c.2.1)) = reqs.flatMap fun req =>
    (e.setting.reportTail req e.decoders[req.id]?).map (Prod.mk req.id)

theorem foldl_collectOne {reqs : List Request} (hnodup : (reqs.map (·.id)).Nodup)
    (results : List CompletedRequest) (tails : List StepChunk) :
    ∃ results' tails', (reqs.foldl collectOne (e, results, tails)).2 =
        (results ++ results', tails ++ tails') ∧
      e.CollectedAll reqs (reqs.foldl collectOne (e, results, tails)).1 results' tails' := by
  induction reqs generalizing e results tails with
  | nil => exact ⟨[], [], by simp, rfl, rfl, rfl, rfl, by simp, rfl, rfl⟩
  | cons req rest ih =>
    obtain ⟨hid, hrest⟩ := List.nodup_cons.1 hnodup
    set e₁ := (collectOne (e, results, tails) req).1 with he₁
    have hkeep : ∀ r ∈ rest, e₁.decoders[r.id]? = e.decoders[r.id]? := by
      intro r hr
      have hne : req.id ≠ r.id := fun heq => hid (List.mem_map.2 ⟨r, hr, heq.symm⟩)
      exact IdMap.get_erase_ne hne
    obtain ⟨results', tails', hout, hall⟩ := ih hrest (e := e₁)
      (collectOne (e, results, tails) req).2.1 (collectOne (e, results, tails) req).2.2
    refine ⟨req.report e.tokenizer e.eosTokenId :: results',
      (if (req.report e.tokenizer e.eosTokenId).success then
        tailChunks req.id e.decoders[req.id]? else []) ++ tails', ?_, ?_⟩
    · rw [List.foldl_cons]
      refine hout.trans ?_
      simp only [collectOne, List.append_assoc, List.singleton_append]
      split <;> simp
    · refine ⟨hall.setting, hall.nextRequestId, hall.scheduler, hall.executionPipeline, ?_, ?_, ?_⟩
      · intro a
        rw [List.foldl_cons]
        refine (hall.decoders a).trans ?_
        rcases eq_or_ne req.id a with rfl | hne
        · simp [he₁, collectOne]
        · have hmem : a ∈ (req :: rest).map (·.id) ↔ a ∈ rest.map (·.id) := by
            rw [List.map_cons, List.mem_cons, or_iff_right]
            exact hne.symm
          simp only [hmem, he₁, collectOne, IdMap.get_erase_ne hne]
      · rw [hall.results]
        rfl
      · rw [List.map_append, hall.texts, List.flatMap_cons]
        refine congr (congrArg _ ?_) (List.flatMap_congr fun r hr => ?_)
        · by_cases hok : (req.report e.tokenizer e.eosTokenId).success = true
          · simp [hok, tailChunks_texts, Setting.reportTail]
          · simp [hok, Setting.reportTail]
        · rw [hkeep r hr]
          rfl

/-- What a collection takes out, reports and streams. -/
structure Collected (e e' : InferenceEngine σ τ δ) (results : List CompletedRequest)
    (tails : List StepChunk) [GPUExecutorTrait σ] : Prop where
  setting : e'.setting = e.setting
  nextRequestId : e'.nextRequestId = e.nextRequestId
  scheduler : e'.scheduler = e.scheduler.takeCompletedWithSeqIds.2
  executionPipeline : e'.executionPipeline =
    if e.scheduler.completedRequests = [] then e.executionPipeline
    else e.executionPipeline.sequencesFinished (e.scheduler.completedRequests.map (·.1))
  decoders : ∀ a : Nat, e'.decoders[a]? =
    if a ∈ e.scheduler.completedRequests.map (·.1) then none else e.decoders[a]?
  results : results =
    e.scheduler.completedRequests.map fun r => r.2.report e.tokenizer e.eosTokenId
  texts : tails.map (fun c => (c.1, c.2.1)) = e.scheduler.completedRequests.flatMap fun r =>
    (e.setting.reportTail r.2 e.decoders[r.1]?).map (Prod.mk r.1)

theorem collectCompletedRequests_collected [GPUExecutorTrait σ] (hs : e.scheduler.Sound) :
    e.Collected e.collectCompletedRequests.2 e.collectCompletedRequests.1.1
      e.collectCompletedRequests.1.2 := by
  have hids : (e.scheduler.completedRequests.map (·.2)).map (·.id) =
      e.scheduler.completedRequests.map (·.1) := by
    rw [List.map_map]
    exact List.map_congr_left hs.labelled.completed
  have hnodup : ((e.scheduler.completedRequests.map (·.2)).map (·.id)).Nodup :=
    hids ▸ hs.wf.completed_nodup
  simp only [collectCompletedRequests, takeCompletedWithSeqIds, List.isEmpty_iff]
  split
  next hnone => exact ⟨rfl, rfl, rfl, (if_pos hnone).symm, by simp [hnone], by simp [hnone],
      by simp [hnone]⟩
  next hsome =>
    obtain ⟨results, tails, hout, hall⟩ := @foldl_collectOne σ τ δ { e with
      scheduler := { e.scheduler with completedRequests := [] }
      executionPipeline := e.executionPipeline.sequencesFinished
        (e.scheduler.completedRequests.map (·.1)) } _ _ _ hnodup [] []
    rw [List.nil_append, List.nil_append] at hout
    have hdecoders := hall.decoders
    simp only [hids] at hdecoders
    refine ⟨hall.setting, hall.nextRequestId, hall.scheduler, ?_, hdecoders, ?_, ?_⟩
    · rw [if_neg hsome]
      exact hall.executionPipeline
    · refine (congrArg Prod.fst hout).trans (hall.results.trans ?_)
      rw [List.map_map]
      rfl
    · refine (congrArg (fun out => out.2.map fun c => (c.1, c.2.1)) hout).trans
        (hall.texts.trans ?_)
      rw [List.flatMap_map]
      refine List.flatMap_congr fun r hr => ?_
      rw [hs.labelled.completed r hr]
      rfl

end InferenceEngine

end PagedServing
