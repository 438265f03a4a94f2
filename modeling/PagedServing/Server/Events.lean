import PagedServing.Engine.Notices
import PagedServing.Engine.Stalls
import PagedServing.Server.EngineLoop

/-! # What the engine has for the loop

The chunks and reports of a session as events of its requests. A call of the engine brings
chunks only for requests that have no report yet.
-/

namespace PagedServing

open Relation LabelledLog

namespace Scheduler

variable {s s' : Scheduler} {id a : SeqId}

/-- Pending or active. -/
def Unfinished (s : Scheduler) (id : SeqId) : Prop :=
  id ∈ s.ids ∧ id ∉ s.completedRequests.map (·.1)

theorem Unfinished.hasPendingWork (h : s.Unfinished id) : s.hasPendingWork = true := by
  obtain ⟨hid, hopen⟩ := h
  by_contra hnone
  simp only [Scheduler.hasPendingWork, Bool.or_eq_true, Bool.not_eq_true', not_or,
    Bool.not_eq_false, List.isEmpty_iff, Std.ExtTreeMap.isEmpty_iff] at hnone
  obtain ⟨⟨hpending, hprefill⟩, hdecode⟩ := hnone
  simp only [ids, hpending, hprefill, hdecode, List.map_nil, IdMap.keys_empty, List.nil_append]
    at hid
  exact hopen hid

theorem unfinished_of_holds (hw : s.Wf) {held : Held} (hheld : s.Holds id held)
    (hopen : ∀ r, held ≠ .completed r) : s.Unfinished id := by
  refine ⟨mem_ids_iff.2 ⟨held, hheld⟩, fun hmem => ?_⟩
  obtain ⟨⟨_, r⟩, hr, rfl⟩ := List.mem_map.1 hmem
  exact hopen r (hw.holds_unique hheld (.completed hr))

theorem exists_unfinished (hw : s.Wf) (h : s.hasPendingWork = true) : ∃ id, s.Unfinished id := by
  have hactive : ∀ {m : IdMap Sequence}, m ≠ ∅ → ∃ (id : SeqId) (seq : Sequence), m[id]? = some seq := by
    intro m hm
    obtain ⟨id, hid⟩ := not_forall.1 (mt IdMap.eq_empty_iff.2 hm)
    exact ⟨id, Option.ne_none_iff_exists'.1 hid⟩
  simp only [Scheduler.hasPendingWork, Bool.or_eq_true, Bool.not_eq_true',
    List.isEmpty_eq_false_iff, Std.ExtTreeMap.isEmpty_eq_false_iff] at h
  rcases h with (hpending | hprefill) | hdecode
  · obtain ⟨p, hp⟩ := List.exists_mem_of_ne_nil _ hpending
    exact ⟨p.seqId, unfinished_of_holds hw (.pending hp) (by rintro r ⟨⟩)⟩
  · obtain ⟨id, seq, hseq⟩ := hactive hprefill
    exact ⟨id, unfinished_of_holds hw (.prefill hseq) (by rintro r ⟨⟩)⟩
  · obtain ⟨id, seq, hseq⟩ := hactive hdecode
    exact ⟨id, unfinished_of_holds hw (.decode hseq) (by rintro r ⟨⟩)⟩

/-- A failure ends the request if it is pending or active, and otherwise nothing. -/
theorem failByRequestId_cases (hs : s.Sound) (a : RequestId) (reason : String) :
    (¬ s.Unfinished a ∧ (s.failByRequestId a reason).2 = s) ∨
      s.Unfinished a ∧ ∃ r, (s.failByRequestId a reason).2.completedRequests =
        s.completedRequests ++ [(a, r)] := by
  rw [failByRequestId_eq hs]
  split
  next hnone =>
    refine .inl ⟨fun ⟨hid, hended⟩ => ?_, rfl⟩
    obtain ⟨held, hheld⟩ := mem_ids_iff.1 hid
    cases held with
    | pending r => exact hnone.2 _ hheld rfl
    | prefill seq =>
        have hactive := Wf.active_of_prefill hheld
        rw [hnone.1] at hactive
        cases hactive
    | decode seq =>
        have hactive := hs.wf.active_of_decode hheld
        rw [hnone.1] at hactive
        cases hactive
    | completed r => exact hended (List.mem_map_of_mem hheld)
  next hsome =>
    rcases failSequence_cases s a reason with hr | ⟨-, p, queue, hp, rfl, -, heq⟩ | ⟨hnone, hno, -⟩
    · obtain ⟨seq, hretired⟩ := retire_spec hs.wf hr
      have hactive := hretired.was
      refine .inr ⟨⟨List.mem_append_left _ (Wf.mem_ids_of_active hactive), fun hmem => ?_⟩, _,
        hretired.completed⟩
      obtain ⟨⟨_, r⟩, hended, rfl⟩ := List.mem_map.1 hmem
      rw [hs.wf.active_none_of_completed hended] at hactive
      cases hactive
    · exact .inr ⟨unfinished_of_holds hs.wf (.pending hp) (by rintro r ⟨⟩), _, by rw [heq]⟩
    · exact absurd ⟨hnone, hno⟩ hsome

/-- A failure ends nobody else. -/
theorem failByRequestId_unfinished (hs : s.Sound) (h : s.Unfinished id) (hne : id ≠ a)
    (reason : String) : (s.failByRequestId a reason).2.Unfinished id := by
  refine ⟨(Moves.evolves hs.wf (failByRequestId_moves s a reason)).ids.mem_iff.2 h.1, ?_⟩
  rcases failByRequestId_cases hs a reason with ⟨-, heq⟩ | ⟨-, r, heq⟩
  · exact heq.symm ▸ h.2
  · rw [heq]
    simpa [hne] using h.2

end Scheduler

/-! ## Events -/

def StepChunk.event (chunk : StepChunk) : RequestId × RequestEvent :=
  (chunk.1, .chunk chunk.2.1 chunk.2.2)

def CompletedRequest.event (report : CompletedRequest) : RequestId × RequestEvent :=
  (report.requestId, .done report)

def eventsOf (chunks : List StepChunk) (reports : List CompletedRequest) :
    List (RequestId × RequestEvent) :=
  chunks.map StepChunk.event ++ reports.map CompletedRequest.event

def chunkEvents (chunks : List (String × Option TokenLogprobs)) : List RequestEvent :=
  chunks.map fun c => .chunk c.1 c.2

variable {chunks : List StepChunk} {reports : List CompletedRequest} {id : RequestId}

theorem under_chunks (chunks : List StepChunk) (id : RequestId) :
    under id (chunks.map StepChunk.event) = chunkEvents (under id chunks) :=
  under_map (fun _ (c : String × Option TokenLogprobs) => RequestEvent.chunk c.1 c.2) id chunks

theorem under_reports_of_not_mem (h : id ∉ reports.map (·.requestId)) :
    under id (reports.map CompletedRequest.event) = [] := by
  refine under_eq_nil ?_
  rw [List.map_map]
  exact h

theorem under_reports_of_mem {report : CompletedRequest}
    (hnodup : (reports.map (·.requestId)).Nodup) (h : report ∈ reports) :
    under report.requestId (reports.map CompletedRequest.event) = [.done report] := by
  refine under_of_nodup ?_ (List.mem_map.2 ⟨report, h, rfl⟩)
  rw [List.map_map]
  exact hnodup

theorem under_chunks_eq_nil (h : textsOf chunks id = []) : under id chunks = [] :=
  List.map_eq_nil_iff.1 h

theorem mem_reports_of_event {report : CompletedRequest}
    (h : report.event ∈ eventsOf chunks reports) : report ∈ reports := by
  rcases List.mem_append.1 h with hmem | hmem
  · obtain ⟨chunk, -, heq⟩ := List.mem_map.1 hmem
    cases (Prod.mk.inj heq).2
  · obtain ⟨other, hother, heq⟩ := List.mem_map.1 hmem
    cases (Prod.mk.inj heq).2
    exact hother

namespace Session

variable {σ τ δ : Type} {s s' : Session σ τ δ}

def events (s : Session σ τ δ) : List (RequestId × RequestEvent) := eventsOf s.chunks s.reports

/-- What a call of the engine brings. -/
structure Brings (s : Session σ τ δ) (chunks : List StepChunk) (reports : List CompletedRequest)
    (s' : Session σ τ δ) : Prop where
  admitted : s'.admitted = s.admitted
  streamed : s'.chunks = s.chunks ++ chunks
  reported : s'.reports = s.reports ++ reports
  quiet : ∀ id ∈ s.reports.map (·.requestId), under id chunks = []
  unfinished : ∀ id, s.engine.scheduler.Unfinished id →
    s'.engine.scheduler.Unfinished id ∨ id ∈ reports.map (·.requestId)
  drained : s'.engine.scheduler.completedRequests = []

theorem Brings.events (h : s.Brings chunks reports s') (id : RequestId) :
    under id s'.events = under id (s.events ++ eventsOf chunks reports) := by
  have hswap : chunkEvents (under id chunks) ++ under id (s.reports.map CompletedRequest.event) =
      under id (s.reports.map CompletedRequest.event) ++ chunkEvents (under id chunks) := by
    by_cases hid : id ∈ s.reports.map (·.requestId)
    · rw [h.quiet id hid]
      exact (List.append_nil _).symm
    · rw [under_reports_of_not_mem hid, List.append_nil, List.nil_append]
  calc under id s'.events
      = chunkEvents (under id s.chunks) ++ (chunkEvents (under id chunks) ++
          under id (s.reports.map CompletedRequest.event)) ++
          under id (reports.map CompletedRequest.event) := by
        rw [Session.events, eventsOf, under_append, under_chunks, h.streamed, h.reported,
          List.map_append, under_append, under_append, chunkEvents, List.map_append]
        simp only [List.append_assoc, chunkEvents]
    _ = _ := by
        rw [hswap, Session.events, eventsOf, eventsOf]
        simp only [under_append, under_chunks, List.append_assoc]

/-- Nothing is brought for a request that already has its report. -/
theorem Brings.not_mem (h : s.Brings chunks reports s')
    (hnodup : (s'.reports.map (·.requestId)).Nodup) (hid : id ∈ s.reports.map (·.requestId)) :
    id ∉ (eventsOf chunks reports).map Prod.fst := by
  rw [eventsOf, List.map_append, List.mem_append, List.map_map, List.map_map]
  rintro (hmem | hmem)
  · obtain ⟨chunk, hchunk, rfl⟩ := List.mem_map.1 hmem
    have hnone : chunk.2 ∈ under chunk.1 chunks := mem_under.2 hchunk
    have hquiet : under chunk.1 chunks = [] := h.quiet _ hid
    rw [hquiet] at hnone
    cases hnone
  · rw [h.reported, List.map_append] at hnodup
    exact List.disjoint_of_nodup_append hnodup hid hmem

variable [IncrementalDecoder δ] [TokenizerTrait τ δ] {x : Setting τ}
  {answer : List TokenId → TokenId → Prop} {R : σ → Fed → Prop}

theorem Inv.reports_nodup (hi : s.Inv answer R x) : (s.reports.map (·.requestId)).Nodup :=
  (List.nodup_append.1 (hi.places.nodup_iff.2 hi.once)).2.1

theorem Inv.reports_admitted (hi : s.Inv answer R x) {id : RequestId}
    (h : id ∈ s.reports.map (·.requestId)) : id ∈ s.admitted.map (·.id) :=
  hi.places.mem_iff.1 (List.mem_append_right _ h)

/-- Nothing has happened to a request that was never admitted. -/
theorem Inv.events_of_stranger (hi : s.Inv answer R x) (h : id ∉ s.admitted.map (·.id)) :
    under id s.events = [] := by
  rw [Session.events, eventsOf, under_append, under_chunks,
    under_chunks_eq_nil (hi.strangers id h).2.2.2,
    under_reports_of_not_mem fun hmem => h (hi.reports_admitted hmem)]
  rfl

theorem Inv.next_fresh (hi : s.Inv answer R x) :
    s.engine.nextRequestId ∉ s.admitted.map (·.id) := by
  intro hmem
  obtain ⟨r, hr, hid⟩ := List.mem_map.1 hmem
  have hlt := (hi.admits r hr).2
  rw [← hi.numbering, hid] at hlt
  exact Nat.lt_irrefl _ hlt

private theorem Inv.brings (hi : s.Inv answer R x) (hadmitted : s'.admitted = s.admitted)
    (hplaces : (s'.engine.scheduler.ids ++ s'.reports.map (·.requestId)).Perm
      (s.engine.scheduler.ids ++ s.reports.map (·.requestId)))
    (hchunks : s'.chunks = s.chunks ++ chunks) (hreports : s'.reports = s.reports ++ reports)
    (hquiet : ∀ id ∈ s.reports.map (·.requestId), textsOf s'.chunks id = textsOf s.chunks id)
    (hdrained : s'.engine.scheduler.completedRequests = []) : s.Brings chunks reports s' where
  admitted := hadmitted
  streamed := hchunks
  reported := hreports
  quiet id hid := by
    have htexts := hquiet id hid
    rw [hchunks, textsOf_append] at htexts
    exact under_chunks_eq_nil (List.append_right_eq_self.1 htexts)
  unfinished id hid := by
    have hmem := hplaces.mem_iff.2 (List.mem_append_left _ hid.1)
    rw [hreports, List.map_append] at hmem
    rcases List.mem_append.1 hmem with hmem | hmem
    · exact .inl ⟨hmem, by rw [hdrained]; exact List.not_mem_nil⟩
    · rcases List.mem_append.1 hmem with hmem | hmem
      · exact absurd hid.1 (hi.not_mem_ids hmem)
      · exact .inr hmem
  drained := hdrained

variable [GPUExecutorTrait σ]

theorem completedRequests_collect (hs : s.engine.scheduler.Sound) :
    s.collect.engine.scheduler.completedRequests = [] := by
  rw [collect, (InferenceEngine.collectCompletedRequests_collected hs).scheduler]
  rfl

/-- A step returns what it brings. -/
theorem step_brings (hA : Answering σ answer R) (hi : s.Inv answer R x)
    (hsettled : Settled s.calls) :
    ∃ events, s.engine.stepEvents = (.ok events, s.step.engine) ∧
      s.Brings events.chunks events.completed s.step := by
  have hadvance := advance_stage hA hi hsettled
  have hmid := hi.stage hadvance
  have hcollect := collect_stage hA hmid.sound hmid.idle hmid.setting
  have hstep := step_eq hi.sound
  refine ⟨_, by rw [step, InferenceEngine.stepEvents_eq hi.sound], hi.brings ?_ ?_ ?_ ?_ ?_ ?_⟩
  · rw [hstep]
    exact hcollect.admitted.trans hadvance.admitted
  · rw [hstep]
    exact hcollect.places.trans hadvance.places
  · rw [step, InferenceEngine.stepEvents_eq hi.sound]
  · rw [step, InferenceEngine.stepEvents_eq hi.sound]
  · intro id hid
    obtain ⟨r, hr, rfl⟩ := List.mem_map.1 (hi.reports_admitted hid)
    obtain ⟨report, hreport, heq⟩ := List.mem_map.1 hid
    exact texts_run hA hi hsettled hr hreport heq [.stepEvents]
  · rw [hstep, completedRequests_collect hmid.sound]

/-- Failing what is pending, when nothing else has ended, brings reports without chunks. -/
theorem failPending_brings (hA : Answering σ answer R) (hi : s.Inv answer R x)
    (hdrained : s.engine.scheduler.completedRequests = []) (reason : String)
    (hs' : s' = s.withEngine (s.engine.failPendingRequests reason).2) :
    s.Brings [] s'.engine.collectCompletedRequests.1.1 s'.collect := by
  subst hs'
  have hfail : Stage x answer R s (s.withEngine (s.engine.failPendingRequests reason).2) :=
    failPending_stage hi.sound hi.idle reason
  have hmid := hi.stage hfail
  have hcollect := collect_stage hA hmid.sound hmid.idle hmid.setting
  have hchunks : (s.withEngine (s.engine.failPendingRequests reason).2).collect.chunks =
      s.chunks := by
    rw [collect, InferenceEngine.collected_tails hmid.sound, List.flatMap_eq_nil_iff.2]
    · exact List.append_nil _
    · intro r hr
      change r ∈ s.engine.scheduler.completedRequests ++ _ at hr
      rw [hdrained, List.nil_append] at hr
      obtain ⟨pending, -, rfl⟩ := List.mem_map.1 hr
      simp [Setting.reportTail, Request.report, Request.fail]
  refine hi.brings (hcollect.admitted.trans hfail.admitted) (hcollect.places.trans hfail.places)
    ?_ rfl ?_ (completedRequests_collect hmid.sound)
  · rw [hchunks, List.append_nil]
  · intro id _
    rw [hchunks]

/-! ## Submissions and cancellations -/

omit [IncrementalDecoder δ] in
theorem events_submit (s : Session σ τ δ) (text : String) (params : GenerationParams) :
    (s.submit text params).events = s.events := by
  rcases s.submit_cases text params with ⟨sch, hrun, -⟩ | ⟨inputTokens, -, -, hrun⟩ <;>
    rw [hrun] <;> rfl

omit [IncrementalDecoder δ] in
theorem unfinished_submit (s : Session σ τ δ) (text : String) (params : GenerationParams)
    (h : s.engine.scheduler.Unfinished id) :
    (s.submit text params).engine.scheduler.Unfinished id := by
  rcases s.submit_cases text params with ⟨sch, hrun, rfl | rfl⟩ | ⟨inputTokens, -, -, hrun⟩
  · rw [hrun]
    exact h
  · rw [hrun]
    exact h
  · rw [hrun]
    exact ⟨(Scheduler.ids_enqueue_perm _ _).mem_iff.2 (List.mem_cons_of_mem _ h.1), h.2⟩

/-- What the admission of a submission comes to. -/
theorem submit_spec (hi : s.Inv answer R x) (text : String) (params : GenerationParams) :
    (∃ err, s.engine.submitRequest text params = (.error err, (s.submit text params).engine) ∧
        (s.submit text params).admitted = s.admitted) ∨
      ∃ r promptTokens, s.engine.submitRequest text params =
          (.ok (r.id, promptTokens), (s.submit text params).engine) ∧
        (s.submit text params).admitted = s.admitted ++ [r] ∧ r.id ∉ s.admitted.map (·.id) ∧
        (s.submit text params).engine.scheduler.Unfinished r.id := by
  rw [submit]
  rcases s.engine.submitRequest_cases text params with
    ⟨err, sch, hrun, -⟩ | ⟨inputTokens, hencode, -, -, hrun⟩
  · rw [hrun]
    exact .inl ⟨err, rfl, rfl⟩
  · rw [hrun, hencode]
    refine .inr ⟨Request.new s.engine.nextRequestId inputTokens params, _, rfl, rfl,
      hi.next_fresh, ?_, ?_⟩
    · refine (Scheduler.ids_enqueue_perm _ _).mem_iff.2 (List.mem_cons.2 (.inl hi.numbering))
    · intro hmem
      obtain ⟨q, hq, hid⟩ := List.mem_map.1 hmem
      have hknown : q.1 ∈ s.admitted.map (·.id) := hi.places.mem_iff.1
        (List.mem_append_left _ (Scheduler.mem_ids_iff.2 ⟨_, .completed hq⟩))
      rw [hid] at hknown
      exact hi.next_fresh hknown

omit [GPUExecutorTrait σ] in
theorem unfinished_cancel {a : RequestId} (hi : s.Inv answer R x)
    (h : s.engine.scheduler.Unfinished id) (hne : id ≠ a) :
    (s.engine.cancelRequest a).2.scheduler.Unfinished id :=
  Scheduler.failByRequestId_unfinished hi.sound h hne _

end Session

end PagedServing
