import PagedServing.Engine.Turn

/-! # The record of one request

The course of a request with all that the steps show of it: the rows of the answers, the
chunks with their logprobs and the errors of its decoder.
-/

namespace PagedServing

open Scheduler Relation LabelledLog

/-- A chunk of one request, and how many tokens had been generated for it by then. -/
structure StreamedChunk where
  position : Nat
  text : String
  logprobs : Option TokenLogprobs
  deriving DecidableEq

/-! ## Errors of decoders -/

def decoderError : Except String (Option String) → List String
  | .error message => [message]
  | .ok _ => []

section Errors

variable {τ δ : Type} [IncrementalDecoder δ]

/-- The error with which a decoder takes a token. -/
def pushError (decoder : Option δ) (token : TokenId) : List String :=
  decoder.elim [] fun d => decoderError (IncrementalDecoder.push d token).1

def finishError (decoder : Option δ) : List String :=
  decoder.elim [] fun d => decoderError (IncrementalDecoder.finish d).1

/-- The error of the flush that a terminal request leaves with. -/
def Setting.flushError [TokenizerTrait τ δ] (x : Setting τ) (req : Request) (decoder : Option δ) :
    List String :=
  if (req.report x.tokenizer x.eosTokenId).success then finishError decoder else []

end Errors

namespace InferenceEngine

variable {σ τ δ : Type} [IncrementalDecoder δ] {e : InferenceEngine σ τ δ}

def pushErrors : InferenceEngine σ τ δ → List (RequestId × TokenId) → List (RequestId × String)
  | _, [] => []
  | e, g :: rest =>
      (pushError e.decoders[g.1]? g.2).map (Prod.mk g.1) ++ pushErrors (pushToken (e, []) g).1 rest

private theorem pushToken_decoder_ne {g : RequestId × TokenId} {a : Nat} (h : g.1 ≠ a) :
    (pushToken (e, []) g).1.decoders[a]? = e.decoders[a]? := by
  obtain ⟨id, token⟩ := g
  rw [pushToken]
  cases hd : e.decoders[id]? with
  | none => rfl
  | some d =>
      dsimp only
      rcases (IncrementalDecoder.push d token).1 with message | _ | text <;>
        exact IdMap.get_insert_ne h

theorem pushErrors_eq {generated : List (RequestId × TokenId)}
    (hnodup : (generated.map Prod.fst).Nodup) :
    e.pushErrors generated =
      generated.flatMap fun g => (pushError e.decoders[g.1]? g.2).map (Prod.mk g.1) := by
  induction generated generalizing e with
  | nil => rfl
  | cons g rest ih =>
    obtain ⟨hid, hrest⟩ := List.nodup_cons.1 hnodup
    rw [pushErrors, ih hrest, List.flatMap_cons]
    refine congrArg _ (List.flatMap_congr fun g' hg' => ?_)
    have hne : g.1 ≠ g'.1 := fun heq => hid (List.mem_map.2 ⟨g', hg', heq.symm⟩)
    rw [pushToken_decoder_ne hne]

variable [TokenizerTrait τ δ]

def flushErrors : InferenceEngine σ τ δ → List Request → List (RequestId × String)
  | _, [] => []
  | e, req :: rest =>
      (e.setting.flushError req e.decoders[req.id]?).map (Prod.mk req.id) ++
        flushErrors (collectOne (e, [], []) req).1 rest

theorem flushErrors_eq {reqs : List Request} (hnodup : (reqs.map (·.id)).Nodup) :
    e.flushErrors reqs =
      reqs.flatMap fun req =>
        (e.setting.flushError req e.decoders[req.id]?).map (Prod.mk req.id) := by
  induction reqs generalizing e with
  | nil => rfl
  | cons req rest ih =>
    obtain ⟨hid, hrest⟩ := List.nodup_cons.1 hnodup
    rw [flushErrors, ih hrest, List.flatMap_cons]
    refine congrArg _ (List.flatMap_congr fun req' hreq' => ?_)
    have hne : req.id ≠ req'.id := fun heq => hid (List.mem_map.2 ⟨req', hreq', heq.symm⟩)
    have hdecoder : (collectOne (e, [], []) req).1.decoders[req'.id]? = e.decoders[req'.id]? :=
      IdMap.get_erase_ne hne
    rw [hdecoder]
    rfl

theorem collected_logprobs [GPUExecutorTrait σ] (e : InferenceEngine σ τ δ) :
    ∀ c ∈ e.collectCompletedRequests.1.2, c.2.2 = none := by
  have hone : ∀ (acc : InferenceEngine σ τ δ × List CompletedRequest × List StepChunk)
      (req : Request), (∀ c ∈ acc.2.2, c.2.2 = none) → ∀ c ∈ (collectOne acc req).2.2, c.2.2 = none := by
    intro acc req hacc c hc
    simp only [collectOne] at hc
    split at hc
    next =>
      rcases List.mem_append.1 hc with hc | hc
      · exact hacc c hc
      · cases hd : acc.1.decoders[req.id]? with
        | none => simp [hd, tailChunks] at hc
        | some d =>
            rw [hd, tailChunks] at hc
            rcases hfinish : (IncrementalDecoder.finish d).1 with message | _ | tail
            · simp [hfinish] at hc
            · simp [hfinish] at hc
            · by_cases htail : tail = "" <;> simp_all
    next => exact hacc c hc
  have hall : ∀ (reqs : List Request)
      (acc : InferenceEngine σ τ δ × List CompletedRequest × List StepChunk),
      (∀ c ∈ acc.2.2, c.2.2 = none) → ∀ c ∈ (reqs.foldl collectOne acc).2.2, c.2.2 = none := by
    intro reqs
    induction reqs with
    | nil => exact fun _ hacc => hacc
    | cons req rest ih => exact fun acc hacc => ih _ (hone acc req hacc)
  rw [collectCompletedRequests]
  split
  simp only
  split
  · simp
  · exact hall _ _ (by simp)

theorem collected_tails [GPUExecutorTrait σ] (hs : e.scheduler.Sound) :
    e.collectCompletedRequests.1.2 = e.scheduler.completedRequests.flatMap fun r =>
      ((e.setting.reportTail r.2 e.decoders[r.1]?).map fun text => (text, none)).map
        (Prod.mk r.1) := by
  calc e.collectCompletedRequests.1.2
      = (e.collectCompletedRequests.1.2.map fun c => (c.1, c.2.1)).map
          fun p => (p.1, p.2, none) := by
        rw [List.map_map]
        refine (List.map_id _).symm.trans (List.map_congr_left fun c hc => ?_)
        rw [Function.comp_apply, ← e.collected_logprobs c hc]
        rfl
    _ = _ := by
        rw [(collectCompletedRequests_collected hs).texts, List.map_flatMap]
        simp [List.map_map, Function.comp_def]

theorem collected_errors (hs : e.scheduler.Sound) :
    e.flushErrors (e.scheduler.completedRequests.map (·.2)) =
      e.scheduler.completedRequests.flatMap fun r =>
        (e.setting.flushError r.2 e.decoders[r.1]?).map (Prod.mk r.1) := by
  have hlabels : (e.scheduler.completedRequests.map (·.2)).map (·.id) =
      e.scheduler.completedRequests.map (·.1) := by
    rw [List.map_map]
    exact List.map_congr_left hs.labelled.completed
  rw [flushErrors_eq (hlabels ▸ hs.wf.completed_nodup), List.flatMap_map]
  refine List.flatMap_congr fun r hr => ?_
  rw [hs.labelled.completed r hr]

end InferenceEngine

/-! ## Records -/

structure Record (δ : Type) where
  place : Place δ
  rows : List OutputRow
  chunks : List StreamedChunk
  errors : List String

namespace Record

variable {τ δ : Type} [IncrementalDecoder δ] [TokenizerTrait τ δ]

def start (x : Setting τ) : Record δ :=
  ⟨.waiting (TokenizerTrait.createDecoder x.tokenizer), [], [], []⟩

inductive Step (x : Setting τ) (r : Request) : Record δ → Record δ → Prop
  | abort {v : Record δ} {req : Request} {decoder : δ} (reason : String)
      (h : v.place.Live r req decoder) :
      Step x r v { v with place := .ended (req.fail reason) (some decoder) }
  | serve {v : Record δ} {seq : Sequence} {entry : BatchEntry} {decoder : δ} (row : OutputRow)
      (h : v.place.Scheduled x.config r seq entry decoder) :
      Step x r v
        { place := (x.settle (seq.next row) decoder row.token).1
          rows := v.rows ++ [row]
          chunks := v.chunks ++ (x.pushedChunks (seq.next row) decoder row.token).map
            fun c => ⟨v.rows.length + 1, c.1, c.2⟩
          errors := v.errors ++ pushError (x.feeds (seq.next row) decoder) row.token }
  | report {v : Record δ} {req : Request} {decoder : Option δ}
      (h : v.place = .ended req decoder) :
      Step x r v
        { place := .reported (req.report x.tokenizer x.eosTokenId)
          rows := v.rows
          chunks := v.chunks ++ (x.reportTail req decoder).map
            fun text => ⟨v.rows.length, text, none⟩
          errors := v.errors ++ x.flushError req decoder }

abbrev Steps (x : Setting τ) (r : Request) : Record δ → Record δ → Prop :=
  Relation.ReflTransGen (Step x r)

variable {x : Setting τ} {r : Request} {v : Record δ}

theorem Steps.course (h : Steps x r (start x) v) :
    ∃ w, Course.Steps x (fun _ _ => True) r (Course.start x) w ∧ w.place = v.place ∧
      w.generated = v.rows.map (·.token) := by
  induction h with
  | refl => exact ⟨_, .refl, rfl, rfl⟩
  | tail _ hstep ih =>
    obtain ⟨w, hsteps, hplace, hgenerated⟩ := ih
    cases hstep with
    | abort reason h =>
        rw [← hplace] at h
        exact ⟨_, hsteps.tail (.abort reason h), rfl, hgenerated⟩
    | serve row h =>
        rw [← hplace] at h
        refine ⟨_, hsteps.tail (.serve row h trivial), rfl, ?_⟩
        rw [List.map_append, ← hgenerated]
        rfl
    | report h =>
        rw [← hplace] at h
        exact ⟨_, hsteps.tail (.report h), rfl, hgenerated⟩

theorem Steps.allows (hr : x.Admits r) (h : Steps x r (start x) v) :
    ∃ texts, x.Allows r (v.rows.map (·.token)) texts v.place := by
  obtain ⟨w, hsteps, hplace, hgenerated⟩ := h.course
  have hlawful := hsteps.lawful hr (Course.lawful_start x _ r)
  exact ⟨w.texts, hplace ▸ hgenerated ▸ hlawful.place⟩

end Record

namespace Session

/-- Chunks with the number of tokens that this log has for their requests. -/
def noted (calls : List BackendCall) (chunks : List StepChunk) :
    List (RequestId × StreamedChunk) :=
  chunks.map fun c => (c.1, ⟨(rowsOf calls c.1).length, c.2.1, c.2.2⟩)

theorem under_noted (calls : List BackendCall) (chunks : List StepChunk) (id : RequestId) :
    under id (noted calls chunks) =
      (under id chunks).map fun c => ⟨(rowsOf calls id).length, c.1, c.2⟩ :=
  under_map (fun id (c : String × Option TokenLogprobs) =>
    (⟨(rowsOf calls id).length, c.1, c.2⟩ : StreamedChunk)) id chunks

variable {σ τ δ : Type} {s s' : Session σ τ δ} {r : Request} {v : Record δ}
  {chunks chunks' : List (RequestId × StreamedChunk)} {errors errors' : List (RequestId × String)}

/-- A session and what its steps have shown, under one request. -/
structure Records (s : Session σ τ δ) (chunks : List (RequestId × StreamedChunk))
    (errors : List (RequestId × String)) (r : Request) (v : Record δ) : Prop where
  place : s.engine.HoldsAt r v.place
  reported : ∀ report, v.place = .reported report →
    report ∈ s.reports ∧ report.requestId = r.id
  rows : v.rows = rowsOf s.calls r.id
  chunks : v.chunks = under r.id chunks
  errors : v.errors = under r.id errors

variable [IncrementalDecoder δ] [TokenizerTrait τ δ] {x : Setting τ}
  {answer : List TokenId → TokenId → Prop} {R : σ → Fed → Prop}

/-- A request that keeps its place or is failed there, with nothing shown of it. -/
theorem Records.keep (h : s.Records chunks errors r v) (hk : s'.engine.Keeps r v.place)
    (hreports : s'.reports = s.reports) (hrows : rowsOf s'.calls r.id = rowsOf s.calls r.id)
    (hchunks : under r.id chunks' = under r.id chunks)
    (herrors : under r.id errors' = under r.id errors) :
    ∃ v', Record.Steps x r v v' ∧ s'.Records chunks' errors' r v' := by
  rcases hk with hsame | ⟨req, d, reason, hlive, hended⟩
  · exact ⟨v, .refl, hsame, hreports ▸ h.reported, h.rows.trans hrows.symm,
      h.chunks.trans hchunks.symm, h.errors.trans herrors.symm⟩
  · refine ⟨_, .single (.abort reason hlive), hended, ?_, h.rows.trans hrows.symm,
      h.chunks.trans hchunks.symm, h.errors.trans herrors.symm⟩
    rintro report ⟨⟩

/-- All that has been shown under the id of a request is in its record. -/
structure Documented (x : Setting τ) (s : Session σ τ δ)
    (chunks : List (RequestId × StreamedChunk)) (errors : List (RequestId × String)) : Prop where
  records : ∀ r ∈ s.admitted, ∃ v, Record.Steps x r (Record.start x) v ∧
    s.Records chunks errors r v
  strangers : ∀ id : RequestId, id ∉ s.admitted.map (·.id) →
    under id chunks = [] ∧ under id errors = []

/-- The record of a request that has been reported. -/
theorem Inv.record (hi : s.Inv answer R x) (h : s.Documented x chunks errors) (hr : r ∈ s.admitted)
    {report : CompletedRequest} (hreport : report ∈ s.reports) (hid : report.requestId = r.id) :
    ∃ v, Record.Steps x r (Record.start x) v ∧ s.Records chunks errors r v ∧
      v.place = .reported report := by
  obtain ⟨v, hsteps, hv⟩ := h.records r hr
  exact ⟨v, hsteps, hv, hi.place_of_report hreport hid hv.place hv.reported⟩

variable [GPUExecutorTrait σ]

/-! ## What a step shows -/

/-- The chunks of the next step, each with the number of tokens generated by then. -/
def stepChunks (s : Session σ τ δ) : List (RequestId × StreamedChunk) :=
  match s.engine.stepEvents.1 with
  | .ok events =>
      events.chunks.map fun c => (c.1, ⟨(s.step.generated c.1).length, c.2.1, c.2.2⟩)
  | .error _ => []

/-- What decoders return as errors in the next step. -/
def stepErrors (s : Session σ τ δ) : List (RequestId × String) :=
  s.engine.pushing.1.pushErrors s.engine.pushing.2 ++
    s.engine.advance.1.flushErrors (s.engine.advance.1.scheduler.completedRequests.map (·.2))

/-- What `f` reads off the steps of a run, in order. -/
def seen {α : Type} (f : Session σ τ δ → List α) (s : Session σ τ δ) : List EngineOp → List α
  | [] => []
  | op :: ops => (if op = .stepEvents then f s else []) ++ seen f (s.apply op) ops

theorem seen_concat {α : Type} (f : Session σ τ δ → List α) (s : Session σ τ δ)
    (ops : List EngineOp) (op : EngineOp) :
    seen f s (ops ++ [op]) = seen f s ops ++ if op = .stepEvents then f (s.run ops) else [] := by
  induction ops generalizing s with
  | nil => simp [seen, run]
  | cons first rest ih =>
    rw [List.cons_append, seen, ih, seen, List.append_assoc]
    rfl

/-! ## One step -/

theorem rowsOf_collect (hs : s.engine.scheduler.Sound) (id : SeqId) :
    rowsOf s.collect.calls id = rowsOf s.calls id := by
  rw [calls, collect, (InferenceEngine.collectCompletedRequests_collected hs).executionPipeline]
  split
  · rfl
  · rw [BatchExecutionPipeline.sequencesFinished, rowsOf_append]
    exact List.append_nil _

theorem stepChunks_eq (hs : s.engine.scheduler.Sound) (hs' : s.advance.engine.scheduler.Sound) :
    s.stepChunks = noted s.advance.calls s.engine.advance.2 ++
      noted s.advance.calls s.advance.engine.collectCompletedRequests.1.2 := by
  have hrows : ∀ id, (s.step.generated id).length = (rowsOf s.advance.calls id).length := by
    intro id
    rw [generated_length, step_eq hs, rowsOf_collect hs']
  simp only [stepChunks, InferenceEngine.stepEvents_eq hs, hrows, noted, ← List.map_append]
  rfl

/-- A step up to the collection serves the request, fails it or leaves it alone. -/
theorem Records.advance (hi : s.Inv answer R x) (h : s.Records chunks errors r v) :
    ∃ v', Record.Steps x r v v' ∧ s.advance.Records
      (chunks ++ noted s.advance.calls s.engine.advance.2)
      (errors ++ s.engine.pushing.1.pushErrors s.engine.pushing.2) r v' := by
  obtain ⟨hnodup, -, hchunks⟩ := InferenceEngine.pushing_spec hi.sound hi.prompts
  have herrors := InferenceEngine.pushErrors_eq (e := s.engine.pushing.1) hnodup
  cases hi.turn h.place with
  | passed hid hplace hrows =>
      refine h.keep hplace rfl hrows ?_ ?_
      · rw [under_append, under_noted, hchunks, under_flatMap_of_not_mem hid]
        exact List.append_nil _
      · rw [under_append, herrors, under_flatMap_of_not_mem hid, List.append_nil]
  | @served seq entry d row hsched hmem hdecoder hpushed hplace hrows =>
      refine ⟨_, .single (.serve row hsched), hplace, ?_, ?_, ?_, ?_⟩
      · exact fun report hreport => absurd hreport (x.settle_ne_reported _ _ _ _)
      · rw [hrows, h.rows]
      · rw [under_append, under_noted, hchunks,
          under_flatMap_of_mem (x := (r.id, row.token)) hnodup hmem, hpushed, hrows,
          List.length_append, h.chunks, h.rows]
        rfl
      · rw [under_append, herrors,
          under_flatMap_of_mem (x := (r.id, row.token)) hnodup hmem, hdecoder, h.errors]

/-- A request that has ended is reported by the collection. -/
theorem Records.collect (hs : s.engine.scheduler.Sound) (hx : s.engine.setting = x)
    (h : s.Records chunks errors r v) :
    ∃ v', Record.Steps x r v v' ∧ s.collect.Records
      (chunks ++ noted s.calls s.engine.collectCompletedRequests.1.2)
      (errors ++ s.engine.flushErrors (s.engine.scheduler.completedRequests.map (·.2))) r v' := by
  have hrows := rowsOf_collect hs r.id
  by_cases hmem : r.id ∈ s.engine.scheduler.completedRequests.map (·.1)
  · obtain ⟨⟨_, q⟩, hq, hid⟩ := List.mem_map.1 hmem
    obtain rfl : _ = r.id := hid
    have hplace := h.place.eq_ended hs.wf hq
    obtain ⟨hgone, hreport⟩ := reported_collect hs hx hq
    refine ⟨_, .single (.report hplace), ⟨hgone, ?_, h.rows.trans hrows.symm, ?_, ?_⟩⟩
    · rintro _ ⟨rfl⟩
      exact ⟨hreport, hs.labelled.completed _ hq⟩
    · rw [under_append, under_noted, InferenceEngine.collected_tails hs,
        under_flatMap_of_mem hs.wf.completed_nodup hq, List.map_map, hx, h.chunks, h.rows]
      rfl
    · rw [under_append, InferenceEngine.collected_errors hs,
        under_flatMap_of_mem hs.wf.completed_nodup hq, hx, h.errors]
  · refine ⟨v, .refl, ⟨holdsAt_collect hs hmem h.place, ?_, h.rows.trans hrows.symm, ?_, ?_⟩⟩
    · intro report hreport
      obtain ⟨hold, hid⟩ := h.reported report hreport
      exact ⟨List.mem_append_left _ hold, hid⟩
    · rw [under_append, under_noted, InferenceEngine.collected_tails hs,
        under_flatMap_of_not_mem hmem, h.chunks]
      exact (List.append_nil _).symm
    · rw [under_append, InferenceEngine.collected_errors hs, under_flatMap_of_not_mem hmem,
        List.append_nil, h.errors]

theorem Records.step (hA : Answering σ answer R) (hi : s.Inv answer R x)
    (hsettled : Settled s.calls) (h : s.Records chunks errors r v) :
    ∃ v', Record.Steps x r v v' ∧
      s.step.Records (chunks ++ s.stepChunks) (errors ++ s.stepErrors) r v' := by
  have hstage := advance_stage hA hi hsettled
  obtain ⟨v₁, hsteps₁, h₁⟩ := h.advance hi
  obtain ⟨v₂, hsteps₂, h₂⟩ := h₁.collect hstage.sound (hstage.setting.trans hi.setting)
  refine ⟨v₂, hsteps₁.trans hsteps₂, ?_⟩
  rw [step_eq hi.sound, stepChunks_eq hi.sound hstage.sound, stepErrors, ← List.append_assoc,
    ← List.append_assoc]
  exact h₂

theorem step_quiet (hA : Answering σ answer R) (hi : s.Inv answer R x)
    (hsettled : Settled s.calls) {id : Nat} (hid : id ∉ s.engine.scheduler.ids)
    (hd : s.engine.decoders[id]? = none) :
    under id s.stepChunks = [] ∧ under id s.stepErrors = [] := by
  have hsound := (advance_stage hA hi hsettled).sound
  obtain ⟨hnodup, -, hchunks⟩ := InferenceEngine.pushing_spec hi.sound hi.prompts
  -- nobody is told of the id, so any report stands for its place
  have hplace : s.engine.HoldsAt (Request.new id [] {})
      (.reported ((Request.new id [] {}).report x.tokenizer x.eosTokenId)) := ⟨hid, hd⟩
  cases hi.turn hplace with
  | served hsched _ _ _ _ _ => cases hsched
  | passed hpushed hkeeps _ =>
      replace hpushed : id ∉ s.engine.pushing.2.map Prod.fst := hpushed
      have hgone : id ∉ s.advance.engine.scheduler.ids := by
        rcases hkeeps with hsame | ⟨_, _, _, hlive, -⟩
        · exact hsame.1
        · cases hlive
      have hcompleted : id ∉ s.advance.engine.scheduler.completedRequests.map (·.1) := by
        intro hmem
        obtain ⟨q, hq, rfl⟩ := List.mem_map.1 hmem
        exact hgone (mem_ids_iff.2 ⟨_, .completed hq⟩)
      constructor
      · rw [stepChunks_eq hi.sound hsound, under_append, under_noted, under_noted, hchunks,
          InferenceEngine.collected_tails hsound, under_flatMap_of_not_mem hpushed,
          under_flatMap_of_not_mem hcompleted]
        rfl
      · rw [stepErrors, under_append, InferenceEngine.pushErrors_eq hnodup,
          under_flatMap_of_not_mem hpushed]
        exact (congrArg _ (InferenceEngine.collected_errors hsound)).trans
          (under_flatMap_of_not_mem hcompleted)

/-! ## Whole runs -/

theorem Documented.apply (hA : Answering σ answer R) (hi : s.Inv answer R x)
    (hsettled : Settled s.calls) (h : s.Documented x chunks errors) (op : EngineOp) :
    (s.apply op).Documented x (chunks ++ if op = .stepEvents then s.stepChunks else [])
      (errors ++ if op = .stepEvents then s.stepErrors else []) := by
  have hkeep : ∀ s' : Session σ τ δ, s'.admitted = s.admitted → s'.reports = s.reports →
      s'.calls = s.calls → (∀ r place, s.engine.HoldsAt r place → s'.engine.Keeps r place) →
      s'.Documented x (chunks ++ []) (errors ++ []) := by
    intro s' hadmitted hreports hcalls hk
    rw [List.append_nil, List.append_nil]
    refine ⟨fun r hr => ?_, hadmitted ▸ h.strangers⟩
    obtain ⟨v, hsteps, hv⟩ := h.records r (hadmitted ▸ hr)
    obtain ⟨v', hmore, hv'⟩ := hv.keep (hk r v.place hv.place) hreports (by rw [hcalls]) rfl rfl
    exact ⟨v', hsteps.trans hmore, hv'⟩
  cases op with
  | cancelRequest requestId =>
      exact hkeep _ rfl rfl rfl (InferenceEngine.failByRequestId_keeps hi.sound requestId _)
  | failPendingRequests reason =>
      exact hkeep _ rfl rfl rfl (InferenceEngine.failPendingRequests_keeps hi.sound reason)
  | stepEvents =>
      have hadmitted : s.step.admitted = s.admitted := by
        rw [step]
        split <;> rfl
      rw [if_pos rfl, if_pos rfl]
      constructor
      · intro r hr
        obtain ⟨v, hsteps, hv⟩ := h.records r (hadmitted ▸ hr)
        obtain ⟨v', hmore, hv'⟩ := hv.step hA hi hsettled
        exact ⟨v', hsteps.trans hmore, hv'⟩
      · intro id hid
        replace hid : id ∉ s.admitted.map (·.id) := hadmitted ▸ hid
        have hunknown : id ∉ s.engine.scheduler.ids := fun hmem =>
          hid (hi.places.mem_iff.1 (List.mem_append_left _ hmem))
        obtain ⟨hchunks, herrors⟩ := h.strangers id hid
        obtain ⟨hchunks', herrors'⟩ := step_quiet hA hi hsettled hunknown (hi.strangers id hid).1
        rw [under_append, under_append, hchunks, herrors, hchunks', herrors']
        exact ⟨rfl, rfl⟩
  | submitRequest text params =>
      rcases s.submit_cases text params with ⟨sch, hrun, hsch⟩ | ⟨inputTokens, -, -, hrun⟩
      · rw [Session.apply, hrun]
        rcases hsch with rfl | rfl <;> exact hkeep _ rfl rfl rfl fun _ _ h => .inl h
      · rw [Session.apply, hrun, if_neg (by simp), if_neg (by simp), List.append_nil,
          List.append_nil]
        constructor
        · intro r hr
          rcases List.mem_append.1 hr with hr | hr
          · obtain ⟨v, hsteps, hv⟩ := h.records r hr
            exact ⟨v, hsteps, hv.place.admitted hi.numbering (hi.admits r hr).2.ne _ _,
              hv.reported, hv.rows, hv.chunks, hv.errors⟩
          · obtain rfl := List.mem_singleton.1 hr
            have hnew : s.engine.nextRequestId ∉ s.admitted.map (·.id) := by
              intro hmem
              obtain ⟨r, hr, heq⟩ := List.mem_map.1 hmem
              exact (hi.admits r hr).2.ne (heq.trans hi.numbering)
            obtain ⟨hchunks, herrors⟩ := h.strangers _ hnew
            have hrows : rowsOf s.calls s.engine.nextRequestId = [] := by
              have htokens := (hi.strangers _ hnew).2.2.1
              rwa [tokensOf_eq_rowsOf, List.map_eq_nil_iff] at htokens
            refine ⟨_, .refl, ?_, ?_, hrows.symm, hchunks.symm, herrors.symm⟩
            · rw [Record.start, ← hi.setting]
              exact InferenceEngine.holdsAt_admitted hi.numbering _ _
            · rintro report ⟨⟩
        · intro id hid
          rw [List.map_append, List.mem_append, not_or] at hid
          exact h.strangers id hid.1

/-- Every run leaves all that it has shown in the records of its requests. -/
theorem documented_run {config : EngineConfig} (hvalid : config.validate = .ok ()) (tokenizer : τ)
    (gpuExecutor : σ) (ops : List EngineOp) :
    ((new config tokenizer gpuExecutor).run ops).Documented (settingOf config tokenizer)
      (seen stepChunks (new config tokenizer gpuExecutor) ops)
      (seen stepErrors (new config tokenizer gpuExecutor) ops) := by
  have hinv : (new config tokenizer gpuExecutor : Session σ τ δ).Inv (fun _ _ => True)
      (fun _ _ => True) (settingOf config tokenizer) :=
    inv_new hvalid tokenizer (fun _ => []) trivial
  induction ops using List.reverseRecOn with
  | nil => exact ⟨by simp [new, run], fun _ _ => ⟨rfl, rfl⟩⟩
  | append_singleton ops op ih =>
      obtain ⟨hi, hsettled⟩ := inv_run (Answering.any σ) hinv (by rintro _ ⟨⟩) ops
      have happly := ih.apply (Answering.any σ) hi hsettled op
      rw [seen_concat, seen_concat, run, List.foldl_append]
      exact happly

end Session

end PagedServing
