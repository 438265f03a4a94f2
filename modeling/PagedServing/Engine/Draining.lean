import PagedServing.Engine.InFlight

/-! # Draining an engine

Every request has a rank, an upper bound on what can still happen to it, and every
step of its course lowers it. The loop of `run` therefore ends, and whoever was
admitted is answered once.
-/

namespace PagedServing

open Scheduler Relation

/-! ## The rank of a request -/

section Ranks

variable {τ δ : Type}

/-- How many steps a request can still take in its place. -/
def Place.rank (r : Request) : Place δ → Nat
  | .waiting _ => r.params.maxTokens.toNat + 2
  | .running seq _ => r.params.maxTokens.toNat + 1 - seq.request.outputTokens.length
  | .ended _ _ => 1
  | .reported _ => 0

variable [IncrementalDecoder δ] [TokenizerTrait τ δ] {x : Setting τ}
  {answer : List TokenId → TokenId → Prop} {r : Request} {w w' : Course δ}

theorem Place.Live.lt_rank {req : Request} {decoder : δ} (hr : x.Admits r)
    (hw : w.Lawful x answer r) (h : w.place.Live r req decoder) :
    r.params.maxTokens.toNat < w.place.rank r + w.generated.length ∧ 1 < w.place.rank r := by
  have hallowed := hw.place
  have hpos := hr.maxTokens_pos
  cases hplace : w.place with
  | waiting d =>
      rw [Place.rank]
      omega
  | running old d =>
      rw [hplace] at hallowed
      have hlen := hallowed.2.length_lt hr
      rw [Place.rank, hallowed.2.after.outputTokens]
      omega
  | ended req d =>
      rw [hplace] at h
      cases h
  | reported report =>
      rw [hplace] at h
      cases h

namespace Course

theorem Step.rank_lt (hr : x.Admits r) (hw : w.Lawful x answer r) (h : Step x answer r w w') :
    w'.place.rank r < w.place.rank r := by
  cases h with
  | abort reason h => exact (h.lt_rank hr hw).2
  | fail reason h =>
      obtain ⟨_, hlive, -⟩ := h.live reason
      exact (hlive.lt_rank hr hw).2
  | @serve seq entry decoder row h ha =>
      obtain ⟨_, hlive, -⟩ := h.live ""
      obtain ⟨hrank, hone⟩ := hlive.lt_rank hr hw
      have hallowed := (Step.lawful hr hw (.serve row h ha)).place
      have hlen := (between_of_scheduled hr hw.place h).length_lt hr
      cases hplace : (x.settle (seq.next row) decoder row.token).1 with
      | waiting d =>
          rw [hplace] at hallowed
          exact absurd hallowed.1 (by simp)
      | running seq' d =>
          rw [hplace] at hallowed
          rw [Place.rank, hallowed.2.after.outputTokens, List.length_append, List.length_singleton]
          omega
      | ended req d => exact hone
      | reported report => exact absurd hplace (Setting.settle_ne_reported x _ _ _ _)
  | report h =>
      rw [h]
      exact Nat.one_pos

theorem Steps.eq_or_rank_lt (hr : x.Admits r) (hw : w.Lawful x answer r)
    (h : Steps x answer r w w') : w' = w ∨ w'.place.rank r < w.place.rank r := by
  induction h with
  | refl => exact .inl rfl
  | tail hsteps hstep ih =>
    have hlt := hstep.rank_lt hr (Steps.lawful hr hw hsteps)
    rcases ih with rfl | ih
    · exact .inr hlt
    · exact .inr (hlt.trans ih)

end Course

end Ranks

namespace InferenceEngine

variable {σ τ δ : Type} {e : InferenceEngine σ τ δ} {r : Request} {place : Place δ}

/-- The rank of a request, by where the scheduler has it. -/
def rank (e : InferenceEngine σ τ δ) (r : Request) : Nat :=
  if r.id ∈ e.scheduler.pendingQueue.map (·.seqId) then r.params.maxTokens.toNat + 2
  else
    match e.scheduler.decodeSequences[r.id]? with
    | some seq => r.params.maxTokens.toNat + 1 - seq.request.outputTokens.length
    | none => if r.id ∈ e.scheduler.completedRequests.map (·.1) then 1 else 0

theorem rank_of_not_mem_ids (h : r.id ∉ e.scheduler.ids) : e.rank r = 0 := by
  have hpending : r.id ∉ e.scheduler.pendingQueue.map (·.seqId) := fun hmem => h (by simp [ids, hmem])
  have hcompleted : r.id ∉ e.scheduler.completedRequests.map (·.1) := fun hmem =>
    h (List.mem_append_right _ hmem)
  have hdecode : e.scheduler.decodeSequences[r.id]? = none := by
    by_contra hne
    obtain ⟨seq, hseq⟩ := Option.ne_none_iff_exists'.1 hne
    exact h (mem_ids_iff.2 ⟨_, .decode hseq⟩)
  rw [rank, if_neg hpending, hdecode]
  exact if_neg hcompleted

theorem rank_of_completed {q : Request} (hw : e.scheduler.Wf)
    (h : e.scheduler.Holds r.id (.completed q)) : e.rank r = 1 := by
  have hpending : r.id ∉ e.scheduler.pendingQueue.map (·.seqId) := by
    rintro hmem
    obtain ⟨p, hp, hid⟩ := List.mem_map.1 hmem
    exact not_pending_of_completed hw h p hp hid
  have hdecode : e.scheduler.decodeSequences[r.id]? = none :=
    (Option.or_eq_none_iff.1 (hw.active_none_of_completed h)).2
  have hcompleted : r.id ∈ e.scheduler.completedRequests.map (·.1) := List.mem_map_of_mem h
  rw [rank, if_neg hpending, hdecode]
  exact if_pos hcompleted

theorem HoldsAt.rank (hw : e.scheduler.Wf) (h : e.HoldsAt r place) :
    e.rank r = place.rank r := by
  cases place with
  | waiting d => rw [InferenceEngine.rank, if_pos (List.mem_map_of_mem (f := (·.seqId)) h.1)]; rfl
  | running seq d =>
      have hpending : r.id ∉ e.scheduler.pendingQueue.map (·.seqId) := by
        rintro hmem
        obtain ⟨p, hp, hid⟩ := List.mem_map.1 hmem
        exact not_pending_of_active hw (hw.active_of_decode h.1) p hp hid
      have hdecode : e.scheduler.decodeSequences[r.id]? = some seq := h.1
      rw [InferenceEngine.rank, if_neg hpending, hdecode]
      rfl
  | ended req d => exact rank_of_completed hw h.1
  | reported report => exact rank_of_not_mem_ids h.1

end InferenceEngine

namespace Session

variable {σ τ δ : Type} [IncrementalDecoder δ] [TokenizerTrait τ δ] {x : Setting τ}
  {answer : List TokenId → TokenId → Prop} {R : σ → Fed → Prop} {s s' : Session σ τ δ}

/-! ## What is left to do -/

/-- The ranks of all admitted requests together. -/
def remaining (s : Session σ τ δ) : Nat := (s.admitted.map s.engine.rank).sum

theorem Stage.rank_le (h : Stage x answer R s s') (hi : s.Inv answer R x) {r : Request}
    (hr : r ∈ s.admitted) :
    s'.engine.rank r ≤ s.engine.rank r ∧
      (s'.generated r.id ≠ s.generated r.id → s'.engine.rank r < s.engine.rank r) := by
  obtain ⟨fed, hR, hall⟩ := hi.courses
  obtain ⟨w, hsteps, ht, hf⟩ := hall r hr
  have hadmits := (hi.admits r hr).1
  have hw := Course.Steps.lawful hadmits (Course.lawful_start x answer r) hsteps
  obtain ⟨fed', -, hcourses⟩ := h.courses fed hR
  obtain ⟨w', hsteps', ht', -⟩ := hcourses r w hadmits hw ht hf
  rw [ht.place.rank hi.sound.wf, ht'.place.rank h.sound.wf]
  rcases Course.Steps.eq_or_rank_lt hadmits hw hsteps' with rfl | hlt
  · exact ⟨le_rfl, fun hne => absurd (ht'.generated.symm.trans ht.generated) hne⟩
  · exact ⟨hlt.le, fun _ => hlt⟩

theorem Stage.remaining_le (h : Stage x answer R s s') (hi : s.Inv answer R x) :
    s'.remaining ≤ s.remaining := by
  rw [remaining, h.admitted]
  exact List.sum_le_sum fun r hr => (h.rank_le hi hr).1

theorem Stage.remaining_lt (h : Stage x answer R s s') (hi : s.Inv answer R x) {r : Request}
    (hr : r ∈ s.admitted) (hlt : s'.engine.rank r < s.engine.rank r) :
    s'.remaining < s.remaining := by
  rw [remaining, h.admitted]
  exact List.sum_lt_sum _ _ (fun r hr => (h.rank_le hi hr).1) ⟨r, hr, hlt⟩

/-- A decoder belongs to a request that the scheduler still has. -/
theorem Inv.decoder_none (hi : s.Inv answer R x) {id : Nat}
    (hid : id ∉ s.engine.scheduler.ids) : s.engine.decoders[id]? = none := by
  by_cases hmem : id ∈ s.admitted.map (·.id)
  · obtain ⟨r, hr, rfl⟩ := List.mem_map.1 hmem
    obtain ⟨fed, -, hall⟩ := hi.courses
    obtain ⟨w, -, ht, -⟩ := hall r hr
    have hplace := ht.place
    cases hat : w.place with
    | waiting d => exact absurd (mem_ids_iff.2 ⟨_, (hat ▸ hplace).1⟩) hid
    | running seq d => exact absurd (mem_ids_iff.2 ⟨_, (hat ▸ hplace).1⟩) hid
    | ended req d => exact absurd (mem_ids_iff.2 ⟨_, (hat ▸ hplace).1⟩) hid
    | reported report => exact (hat ▸ hplace).2
  · exact (hi.strangers id hmem).1

variable [GPUExecutorTrait σ]

/-- Whoever is reported has reached the end of its course. -/
theorem collect_remaining_lt (hA : Answering σ answer R) (hi : s.Inv answer R x)
    (h : s.engine.scheduler.completedRequests ≠ []) : s.collect.remaining < s.remaining := by
  have hstage := collect_stage hA hi.sound hi.idle hi.setting
  have hc := InferenceEngine.collectCompletedRequests_collected hi.sound
  obtain ⟨⟨id, q⟩, hq⟩ := List.exists_mem_of_ne_nil _ h
  have hended : s.engine.scheduler.Holds id (.completed q) := hq
  obtain ⟨r, hr, rfl⟩ := hi.exists_admitted (mem_ids_iff.2 ⟨_, hended⟩)
  refine hstage.remaining_lt hi hr ?_
  rw [InferenceEngine.rank_of_completed hi.sound.wf hended]
  refine Nat.lt_one_iff.2 (InferenceEngine.rank_of_not_mem_ids ?_)
  rw [collect, hc.scheduler, mem_ids_iff]
  rintro ⟨held, hheld⟩
  obtain ⟨hheld, hne⟩ := holds_takeCompleted.1 hheld
  exact hne q (hi.sound.wf.holds_unique hheld hended)

/-- If a sequence is active after a step, it was given a token. -/
theorem advance_remaining_lt (hA : Answering σ answer R) (hi : s.Inv answer R x)
    (hsettled : Settled s.calls) (hroomy : s.engine.scheduler.Roomy)
    (h : 0 < s.advance.engine.scheduler.numActiveSequences) :
    s.advance.remaining < s.remaining := by
  have hs := hi.sound
  have hstage := advance_stage hA hi hsettled
  rw [numActiveSequences, hstage.idle, Std.ExtTreeMap.size_empty, Nat.zero_add] at h
  have hactive : s.advance.engine.scheduler.decodeSequences ≠ ∅ := fun hnone => by
    rw [hnone] at h
    simp at h
  rw [advance] at hactive hstage ⊢
  rcases InferenceEngine.advance_cases hi.prompts with
    ⟨hempty, heq⟩ | ⟨-, ⟨reason, heq⟩ | ⟨b, err, pipeline, hsent, heq⟩ |
      ⟨b, output, pipeline, hsent, heq⟩⟩
  · rw [heq] at hactive
    exact absurd (InferenceEngine.scheduled_decode_of_isEmpty hs hi.idle hroomy hempty) hactive
  · rw [heq] at hactive
    exact absurd (InferenceEngine.batchFailed_decode hs hi.idle hroomy _ reason) hactive
  · rw [heq] at hactive
    exact absurd (InferenceEngine.batchFailed_decode hs hi.idle hroomy pipeline _) hactive
  · rw [heq] at hactive hstage ⊢
    obtain ⟨a, seq, hseq⟩ : ∃ (a : Nat) (seq : Sequence),
        (s.engine.served pipeline output).1.scheduler.decodeSequences[a]? = some seq := by
      by_contra hno
      simp only [not_exists] at hno
      exact hactive (IdMap.eq_empty_iff.2 fun a => Option.eq_none_iff_forall_ne_some.2 (hno a))
    have hlisted := InferenceEngine.served_listed hs hi.idle hroomy hsent hseq
    obtain ⟨r, hr, rfl⟩ :=
      hi.exists_admitted (InferenceEngine.mem_ids_of_listed hs hlisted)
    refine hstage.remaining_lt hi hr ((hstage.rank_le hi hr).2 fun hsame => ?_)
    have ha := InferenceEngine.answered_of_sent hs hsent
    obtain ⟨row, -, hpair⟩ := ExecutionOutput.exists_row ha.tokens ha.nodup
      ((InferenceEngine.mem_output_iff hs hsent).2 hlisted)
    rw [generated, calls_served hs hsent, hsent.attempts.tokensOf_ok, generated, calls,
      List.append_right_eq_self, List.filterMap_eq_nil_iff] at hsame
    simpa using hsame _ hpair

end Session

end PagedServing
