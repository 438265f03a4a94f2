import PagedServing.Engine.RunLoop

/-! # How long a decoding request can take

Each step lowers the rank of each active request, so its own token limit bounds the steps until
its report, whatever else the engine is asked to do meanwhile.
-/

namespace PagedServing

open Scheduler Relation

namespace Session

variable {σ τ δ : Type} [IncrementalDecoder δ] [TokenizerTrait τ δ]
  {x : Setting τ} {answer : List TokenId → TokenId → Prop} {R : σ → Fed → Prop}
  {s : Session σ τ δ} {r : Request}

theorem Inv.decoding (hi : s.Inv answer R x) {id : SeqId} {seq : Sequence}
    (hactive : s.engine.scheduler.active id = some seq) :
    ∃ r ∈ s.admitted, r.id = id ∧ ∃ (w : Course δ) (d : δ),
      Course.Steps x answer r (Course.start x) w ∧ w.Lawful x answer r ∧
        w.place = .running seq d ∧ s.Tells r w := by
  have hdecode : s.engine.scheduler.decodeSequences[id]? = some seq := by
    rw [Scheduler.active, hi.idle] at hactive
    simpa using hactive
  obtain ⟨r, hr, rfl⟩ := hi.exists_admitted (mem_ids_iff.2 ⟨_, .decode hdecode⟩)
  obtain ⟨fed, -, hall⟩ := hi.courses
  obtain ⟨w, hsteps, ht, -⟩ := hall r hr
  have hw := hsteps.lawful (hi.admits r hr).1 (Course.lawful_start x answer r)
  have hplace := ht.place
  refine ⟨r, hr, rfl, w, ?_⟩
  cases hat : w.place with
  | waiting d =>
      rw [hat] at hplace
      cases hi.sound.wf.holds_unique hplace.1 (.decode hdecode)
  | running seq' d =>
      rw [hat] at hplace
      cases hi.sound.wf.holds_unique hplace.1 (.decode hdecode)
      exact ⟨d, hsteps, hw, rfl, ht⟩
  | ended req d =>
      rw [hat] at hplace
      cases hi.sound.wf.holds_unique hplace.1 (.decode hdecode)
  | reported report =>
      rw [hat] at hplace
      exact absurd (mem_ids_iff.2 ⟨_, .decode hdecode⟩) hplace.1

theorem Inv.reported_of_rank (hi : s.Inv answer R x) (hr : r ∈ s.admitted)
    (hrank : s.engine.rank r = 0) : r.id ∈ s.reports.map (·.requestId) := by
  have hmem := hi.places.mem_iff.2 (List.mem_map_of_mem (f := (·.id)) hr)
  refine (List.mem_append.1 hmem).resolve_left fun hid => ?_
  obtain ⟨fed, -, hall⟩ := hi.courses
  obtain ⟨w, hsteps, ht, -⟩ := hall r hr
  have hadmits := (hi.admits r hr).1
  have hw := Course.Steps.lawful hadmits (Course.lawful_start x answer r) hsteps
  have hplace := ht.place
  rw [hplace.rank hi.sound.wf] at hrank
  cases hat : w.place with
  | waiting d =>
      have := ((hat ▸ Place.Live.waiting d : w.place.Live r r d).lt_rank hadmits hw).2
      omega
  | running seq d =>
      have := ((hat ▸ Place.Live.running seq d : w.place.Live r _ d).lt_rank hadmits hw).2
      omega
  | ended req d =>
      rw [hat, Place.rank] at hrank
      cases hrank
  | reported report => exact (hat ▸ hplace).1 hid

variable [GPUExecutorTrait σ]

theorem generated_advance_ne (hi : s.Inv answer R x) (hroomy : s.engine.scheduler.Roomy)
    {id : Nat} {seq : Sequence}
    (hseq : s.advance.engine.scheduler.decodeSequences[id]? = some seq) :
    s.advance.generated id ≠ s.generated id := by
  have hs := hi.sound
  have hgone {e : InferenceEngine σ τ δ} (h : s.engine.advance = (e, []))
      (hnone : e.scheduler.decodeSequences = ∅) : False := by
    rw [advance, h] at hseq
    change e.scheduler.decodeSequences[id]? = some seq at hseq
    simp [hnone] at hseq
  rcases InferenceEngine.advance_cases hi.prompts with
    ⟨hempty, heq⟩ | ⟨-, ⟨reason, heq⟩ | ⟨b, err, pipeline, hsent, heq⟩ |
      ⟨b, output, pipeline, hsent, heq⟩⟩
  · exact (hgone heq (InferenceEngine.scheduled_decode_of_isEmpty hs hi.idle hroomy hempty)).elim
  · exact (hgone heq (InferenceEngine.batchFailed_decode hs hi.idle hroomy _ reason)).elim
  · exact (hgone heq (InferenceEngine.batchFailed_decode hs hi.idle hroomy pipeline _)).elim
  · rw [advance, heq] at hseq ⊢
    have hlisted := InferenceEngine.served_listed hs hi.idle hroomy hsent hseq
    have ha := InferenceEngine.answered_of_sent hs hsent
    obtain ⟨row, -, hpair⟩ := ExecutionOutput.exists_row ha.tokens ha.nodup
      ((InferenceEngine.mem_output_iff hs hsent).2 hlisted)
    intro hsame
    rw [generated, calls_served hs hsent, hsent.attempts.tokensOf_ok, generated, calls,
      List.append_right_eq_self, List.filterMap_eq_nil_iff] at hsame
    simpa using hsame _ hpair

/-- A rank of two or more is that of a request which is not through. -/
theorem step_rank (hA : Answering σ answer R) (h : s.Steady answer R x) (hr : r ∈ s.admitted)
    (hstarted : s.engine.rank r < r.params.maxTokens.toNat + 2) :
    s.step.engine.rank r = 0 ∨
      2 ≤ s.step.engine.rank r ∧ s.step.engine.rank r < s.engine.rank r := by
  have hi := h.inv
  have hadmits := (hi.admits r hr).1
  have hstage := advance_stage hA hi h.settled
  have hmid := hi.stage hstage
  have hle := hstage.rank_le hi hr
  have hr' : r ∈ s.advance.admitted := hstage.admitted.symm ▸ hr
  have hcollect := (collect_stage hA hmid.sound hmid.idle hmid.setting).rank_le hmid hr'
  obtain ⟨fed, -, hall⟩ := hmid.courses
  obtain ⟨w, hsteps, ht, -⟩ := hall r hr'
  have hw := Course.Steps.lawful hadmits (Course.lawful_start x answer r) hsteps
  have hplace := ht.place
  have hrank := hplace.rank hmid.sound.wf
  rw [step_eq hi.sound]
  cases hat : w.place with
  | waiting d =>
      rw [hat, Place.rank] at hrank
      omega
  | running seq d =>
      rw [hat] at hplace
      have hdecode : s.advance.engine.scheduler.decodeSequences[r.id]? = some seq := hplace.1
      have hlt := hle.2 (generated_advance_ne hi h.roomy hdecode)
      have hlive := (hat ▸ Place.Live.running seq d :
        w.place.Live r seq.request d).lt_rank hadmits hw
      refine .inr ⟨?_, lt_of_le_of_lt hcollect.1 hlt⟩
      have hkept := holdsAt_collect hmid.sound (r := r) (fun hmem => ?_) hplace
      · have hsame := (hkept.rank (hmid.stage (collect_stage hA hmid.sound hmid.idle
          hmid.setting)).sound.wf).trans (hplace.rank hmid.sound.wf).symm
        have := hrank
        omega
      · obtain ⟨⟨_, q⟩, hq, hid⟩ := List.mem_map.1 hmem
        obtain rfl : _ = r.id := hid
        have hended := hmid.sound.wf.holds_unique hplace.1 (.completed hq)
        cases hended
  | ended req d =>
      rw [hat] at hplace
      exact .inl (InferenceEngine.rank_of_not_mem_ids
        (reported_collect hmid.sound hmid.setting hplace.1).1.1)
  | reported report =>
      rw [hat, Place.rank] at hrank
      omega

theorem apply_rank_le (hi : s.Inv answer R x) (hr : r ∈ s.admitted) {op : EngineOp}
    (hop : op ≠ .stepEvents) : (s.apply op).engine.rank r ≤ s.engine.rank r := by
  cases op with
  | submitRequest text params =>
      rw [apply]
      rcases s.submit_cases text params with ⟨sch, hrun, rfl | rfl⟩ | ⟨inputTokens, -, -, hrun⟩
      · rw [hrun]
        exact le_rfl
      · rw [hrun]
        exact le_rfl
      · have hne : r.id ≠ s.engine.scheduler.nextSeqId := (hi.admits r hr).2.ne
        have hpending : r.id ∈ (s.engine.admitted inputTokens params).scheduler.pendingQueue.map
            (·.seqId) ↔ r.id ∈ s.engine.scheduler.pendingQueue.map (·.seqId) := by
          simp only [InferenceEngine.admitted, Scheduler.enqueue, List.map_append, List.mem_append,
            List.map_singleton, List.mem_singleton]
          exact or_iff_left hne
        rw [hrun, InferenceEngine.rank, InferenceEngine.rank, if_congr hpending rfl rfl]
        exact le_rfl
  | cancelRequest requestId =>
      have hstage : Stage x answer R s _ := cancel_stage hi.sound hi.idle requestId
      exact (hstage.rank_le hi hr).1
  | stepEvents => exact absurd rfl hop
  | failPendingRequests reason =>
      have hstage : Stage x answer R s _ := failPending_stage hi.sound hi.idle reason
      exact (hstage.rank_le hi hr).1

theorem run_steady (hA : Answering σ answer R) (h : s.Steady answer R x) (ops : List EngineOp) :
    (s.run ops).Steady answer R x := by
  induction ops generalizing s with
  | nil => exact h
  | cons op ops ih => exact ih (h.apply hA op)

theorem prefix_run (s : Session σ τ δ) (ops : List EngineOp) :
    s.admitted <+: (s.run ops).admitted := by
  induction ops generalizing s with
  | nil => exact List.prefix_rfl
  | cons op ops ih => exact (s.prefix_apply op).1.trans (ih (s.apply op))

/-- So many steps bring a rank down to zero; nothing else raises it. -/
theorem run_rank (hA : Answering σ answer R) (hr : r ∈ s.admitted) (h : s.Steady answer R x)
    (ops : List EngineOp) (hstarted : s.engine.rank r < r.params.maxTokens.toNat + 2)
    (hrank : s.engine.rank r ≤ ops.count .stepEvents + 1)
    (hnone : ops.count .stepEvents = 0 → s.engine.rank r = 0) :
    (s.run ops).engine.rank r = 0 := by
  induction ops generalizing s with
  | nil => exact hnone rfl
  | cons op ops ih =>
    have hr' : r ∈ (s.apply op).admitted := (s.prefix_apply op).1.subset hr
    have hsteady := h.apply hA op
    by_cases hop : op = .stepEvents
    · subst hop
      rw [List.count_cons_self] at hrank
      have hstep : s.apply .stepEvents = s.step := rfl
      rw [run, List.foldl_cons, ← run]
      rw [hstep] at hr' hsteady ⊢
      rcases step_rank hA h hr hstarted with hzero | ⟨htwo, hlt⟩
      · exact ih hr' hsteady (by omega) (by omega) fun _ => hzero
      · exact ih hr' hsteady (by omega) (by omega) fun _ => by omega
    · have hle := apply_rank_le h.inv hr hop
      rw [List.count_cons_of_ne hop] at hrank hnone
      exact ih hr' hsteady (by omega) (by omega) fun hzero => by
        have := hnone hzero
        omega

theorem reported_within {config : EngineConfig} {tokenizer : τ} {gpuExecutor : σ}
    (h : s.Reachable config tokenizer gpuExecutor) {id : SeqId} {seq : Sequence}
    (hactive : s.engine.scheduler.active id = some seq) (ops : List EngineOp)
    (hsteps : seq.request.params.maxTokens.toNat - seq.request.outputTokens.length ≤
      ops.count .stepEvents) : id ∈ (s.run ops).reports.map (·.requestId) := by
  have hsteady := h.steady
  have hA := Answering.any σ
  obtain ⟨r, hr, rfl, w, d, -, hw, hat, ht⟩ := hsteady.inv.decoding hactive
  have hadmits := (hsteady.inv.admits r hr).1
  have hplace := hw.place
  rw [hat] at hplace
  obtain ⟨hout, hbetween⟩ := hplace
  have hlt := hbetween.length_lt hadmits
  have hpos := List.length_pos_of_ne_nil hout
  have hrank := ht.place.rank hsteady.inv.sound.wf
  rw [hat, Place.rank, hbetween.after.outputTokens] at hrank
  rw [hbetween.after.params, hbetween.after.outputTokens] at hsteps
  have hrun := run_rank hA hr hsteady ops (by omega) (by omega) (by omega)
  exact (run_steady hA hsteady ops).inv.reported_of_rank ((s.prefix_run ops).subset hr) hrun

/-- A neighbour comes in and is cancelled again; with two tokens to go, two steps are enough. -/
theorem reported_within_small :
    1 ∈ ((((new smallConfig SimpleTokenizer.new ⟨fun _ => []⟩ :
        Session (FunctionBackend stopAtFour) SimpleTokenizer SimpleDecoder).run
          (smallOps.take 2)).run
        [.submitRequest "b" {}, .stepEvents, .cancelRequest 2, .stepEvents]).reports.map
      (·.requestId)) := by
  have hactive : ((((new smallConfig SimpleTokenizer.new ⟨fun _ => []⟩ :
      Session (FunctionBackend stopAtFour) SimpleTokenizer SimpleDecoder).run
        (smallOps.take 2)).engine.scheduler.active 1).map fun seq =>
          seq.request.params.maxTokens.toNat - seq.request.outputTokens.length) = some 2 := by
    decide +kernel
  obtain ⟨seq, hseq, htwo⟩ := Option.map_eq_some_iff.1 hactive
  exact reported_within ⟨by decide +kernel, _, rfl⟩ hseq _ (by rw [htwo]; decide)

end Session

end PagedServing
