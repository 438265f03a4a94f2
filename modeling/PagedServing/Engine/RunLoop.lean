import PagedServing.Engine.Draining

/-! # The loop of `run`

Each turn of the loop either lowers what remains to be done or counts as idle, and a
hundred idle turns end it. `run` returns a report for everyone who has none yet and
leaves nothing behind.
-/

namespace PagedServing

open Scheduler Relation

namespace Session

variable {σ τ δ : Type} [GPUExecutorTrait σ] [IncrementalDecoder δ] [TokenizerTrait τ δ]
  {x : Setting τ} {answer : List TokenId → TokenId → Prop} {R : σ → Fed → Prop}
  {s s' : Session σ τ δ}

/-- What holds of a session whenever its engine is not in a call. -/
structure Steady (answer : List TokenId → TokenId → Prop) (R : σ → Fed → Prop) (x : Setting τ)
    (s : Session σ τ δ) : Prop where
  inv : s.Inv answer R x
  settled : Settled s.calls
  roomy : s.engine.scheduler.Roomy

theorem Steady.apply (hA : Answering σ answer R) (h : s.Steady answer R x) (op : EngineOp) :
    (s.apply op).Steady answer R x := by
  obtain ⟨hi, hsettled⟩ := inv_apply hA h.inv h.settled op
  exact ⟨hi, hsettled, roomy_apply hA h.inv h.settled h.roomy op⟩

theorem Steady.step (hA : Answering σ answer R) (h : s.Steady answer R x) :
    s.step.Steady answer R x := h.apply hA .stepEvents

theorem Steady.failPending (hA : Answering σ answer R) (h : s.Steady answer R x)
    (reason : String) : (s.withEngine (s.engine.failPendingRequests reason).2).Steady answer R x :=
  h.apply hA (.failPendingRequests reason)

theorem Steady.collect (hA : Answering σ answer R) (h : s.Steady answer R x) :
    s.collect.Steady answer R x := by
  have hs := h.inv.sound
  refine ⟨h.inv.stage (collect_stage hA hs h.inv.idle h.inv.setting),
    collect_settled hs (.inl h.settled), ?_⟩
  rw [Session.collect, (InferenceEngine.collectCompletedRequests_collected hs).scheduler]
  exact h.roomy

theorem Reachable.steady {config : EngineConfig} {tokenizer : τ} {gpuExecutor : σ}
    (h : s.Reachable config tokenizer gpuExecutor) :
    s.Steady (fun _ _ => True) (fun _ _ => True) (settingOf config tokenizer) :=
  ⟨h.inv_any.1, h.inv_any.2, h.roomy⟩

/-- A step returns its events. -/
theorem step_spec (hs : s.engine.scheduler.Sound) :
    ∃ events, s.engine.stepEvents = (.ok events, s.step.engine) ∧
      s.step.reports = s.reports ++ events.completed := by
  rw [step, InferenceEngine.stepEvents_eq hs]
  exact ⟨_, rfl, rfl⟩

/-! ## The actions of a run -/

inductive Act : Session σ τ δ → Session σ τ δ → Prop
  | step (s : Session σ τ δ) : Act s s.step
  | failPending (s : Session σ τ δ) (reason : String) :
      Act s (s.withEngine (s.engine.failPendingRequests reason).2)
  | collect (s : Session σ τ δ) : Act s s.collect

theorem Act.steady (hA : Answering σ answer R) (h : s.Steady answer R x) (ha : Act s s') :
    s'.Steady answer R x := by
  cases ha with
  | step => exact h.step hA
  | failPending reason => exact h.failPending hA reason
  | collect => exact h.collect hA

theorem acts_steady (hA : Answering σ answer R) (h : s.Steady answer R x)
    (ha : ReflTransGen Act s s') : s'.Steady answer R x := by
  induction ha with
  | refl => exact h
  | tail _ hact ih => exact hact.steady hA ih

theorem Act.admitted_eq (h : Act s s') : s'.admitted = s.admitted := by
  cases h with
  | step =>
      rw [Session.step]
      split <;> rfl
  | failPending => rfl
  | collect => rfl

theorem acts_admitted_eq (h : ReflTransGen Act s s') : s'.admitted = s.admitted := by
  induction h with
  | refl => rfl
  | tail _ hact ih => exact hact.admitted_eq.trans ih

/-! ## The loop -/

/-- Whatever the loop returns was reached by steps, with nothing left to schedule. -/
theorem runLoop_acts (hA : Answering σ answer R) {fuel idleSteps : Nat}
    {acc all : List CompletedRequest} {e : InferenceEngine σ τ δ} (h : s.Steady answer R x)
    (hrun : InferenceEngine.runLoop fuel s.engine acc idleSteps = some (all, e)) :
    ∃ s', ReflTransGen Act s s' ∧ s'.engine = e ∧ e.scheduler.hasPendingWork = false ∧
      ∃ new, s'.reports = s.reports ++ new ∧ all = acc ++ new := by
  induction fuel generalizing s acc idleSteps with
  | zero => simp [InferenceEngine.runLoop] at hrun
  | succ fuel ih =>
    rw [InferenceEngine.runLoop] at hrun
    split at hrun
    next hwork =>
      obtain ⟨rfl, rfl⟩ := Prod.mk.inj (Option.some.inj hrun)
      exact ⟨s, .refl, rfl, by simpa using hwork, [], by simp, by simp⟩
    next =>
      obtain ⟨events, hstep, hreports⟩ := step_spec h.inv.sound
      rw [hstep] at hrun
      dsimp only at hrun
      have hact : Act s s.step := .step s
      have hnext : ∀ {idle : Nat}, InferenceEngine.runLoop fuel s.step.engine
          (acc ++ events.completed) idle = some (all, e) →
          ∃ s', ReflTransGen Act s s' ∧ s'.engine = e ∧ e.scheduler.hasPendingWork = false ∧
            ∃ new, s'.reports = s.reports ++ new ∧ all = acc ++ new := by
        intro idle hloop
        obtain ⟨s', hacts, hengine, hdone, new, hnew, hall⟩ := ih (h.step hA) hloop
        refine ⟨s', .head hact hacts, hengine, hdone, events.completed ++ new, ?_, ?_⟩
        · rw [hnew, hreports, List.append_assoc]
        · rw [hall, List.append_assoc]
      split at hrun
      next => exact hnext hrun
      next hidle =>
        split at hrun
        next =>
          obtain ⟨rfl, rfl⟩ := Prod.mk.inj (Option.some.inj hrun)
          refine ⟨_, .tail (.single hact) (.failPending s.step InferenceEngine.stallReason), rfl,
            ?_, events.completed, hreports, rfl⟩
          have hsize : s.step.engine.scheduler.numActiveSequences = 0 := by
            simp only [Bool.or_eq_true, decide_eq_true_eq, not_or] at hidle
            omega
          rw [numActiveSequences, Nat.add_eq_zero_iff, IdMap.size_eq_zero_iff,
            IdMap.size_eq_zero_iff] at hsize
          simp [InferenceEngine.failPendingRequests, failPendingRequests, hasPendingWork, hsize]
        next => exact hnext hrun

theorem step_remaining_le (hA : Answering σ answer R) (h : s.Steady answer R x) :
    s.step.remaining ≤ s.remaining := by
  have hstage := advance_stage hA h.inv h.settled
  have hmid := h.inv.stage hstage
  rw [step_eq h.inv.sound]
  exact ((collect_stage hA hmid.sound hmid.idle hmid.setting).remaining_le hmid).trans
    (hstage.remaining_le h.inv)

/-- A step that reports something, or after which something is active, was of use. -/
theorem step_remaining_lt (hA : Answering σ answer R) (h : s.Steady answer R x)
    (hmoved : s.step.reports ≠ s.reports ∨ 0 < s.step.engine.scheduler.numActiveSequences) :
    s.step.remaining < s.remaining := by
  have hstage := advance_stage hA h.inv h.settled
  have hmid := h.inv.stage hstage
  have hc := InferenceEngine.collectCompletedRequests_collected hmid.sound
  have hcollect := (collect_stage hA hmid.sound hmid.idle hmid.setting).remaining_le hmid
  rw [step_eq h.inv.sound] at hmoved ⊢
  rcases hmoved with hreports | hactive
  · refine (collect_remaining_lt hA hmid fun hnone => hreports ?_).trans_le
      (hstage.remaining_le h.inv)
    rw [collect, hc.results, hnone, List.map_nil, List.append_nil]
    rfl
  · rw [collect, hc.scheduler] at hactive
    exact hcollect.trans_lt (advance_remaining_lt hA h.inv h.settled h.roomy hactive)

/-- The number of turns is bounded by what remains to be done. -/
theorem runLoop_terminates (hA : Answering σ answer R) {fuel idleSteps : Nat}
    (acc : List CompletedRequest) (h : s.Steady answer R x)
    (hfuel : s.remaining * (InferenceEngine.stallLimit + 1) +
      (InferenceEngine.stallLimit - idleSteps) < fuel) :
    ∃ result, InferenceEngine.runLoop fuel s.engine acc idleSteps = some result := by
  induction fuel generalizing s acc idleSteps with
  | zero => exact absurd hfuel (Nat.not_lt_zero _)
  | succ fuel ih =>
    rw [InferenceEngine.runLoop]
    split
    next => exact ⟨_, rfl⟩
    next =>
      obtain ⟨events, hstep, hreports⟩ := step_spec h.inv.sound
      rw [hstep]
      dsimp only
      split
      next hmoved =>
        have hlt : s.step.remaining < s.remaining := by
          refine step_remaining_lt hA h ?_
          rcases (Bool.or_eq_true _ _).mp hmoved with hcompleted | hactive
          · refine .inl fun hsame => ?_
            rw [hreports, List.append_right_eq_self] at hsame
            simp [hsame] at hcompleted
          · exact .inr (of_decide_eq_true hactive)
        refine ih _ (h.step hA) ?_
        have hmul : (s.step.remaining + 1) * (InferenceEngine.stallLimit + 1) ≤
            s.remaining * (InferenceEngine.stallLimit + 1) := Nat.mul_le_mul_right _ hlt
        rw [Nat.add_mul] at hmul
        omega
      next =>
        split
        next => exact ⟨_, rfl⟩
        next hstall =>
          refine ih _ (h.step hA) ?_
          have hmul : s.step.remaining * (InferenceEngine.stallLimit + 1) ≤
              s.remaining * (InferenceEngine.stallLimit + 1) :=
            Nat.mul_le_mul_right _ (step_remaining_le hA h)
          omega

/-! ## A whole run -/

/-- An engine from which everything has gone. -/
structure Idle (e : InferenceEngine σ τ δ) : Prop where
  pending : e.scheduler.hasPendingWork = false
  completed : e.scheduler.completedRequests = []
  used : e.scheduler.kvCache.getMemoryStats.usedBlocks = 0
  decoders : e.decoders = ∅

theorem Steady.idle_collect (hA : Answering σ answer R) (h : s.Steady answer R x)
    (hdone : s.engine.scheduler.hasPendingWork = false) :
    Idle s.collect.engine ∧
      (s.collect.reports.map (·.requestId)).Perm (s.admitted.map (·.id)) := by
  have hc := InferenceEngine.collectCompletedRequests_collected h.inv.sound
  have hi := (h.collect hA).inv
  have hscheduler : s.collect.engine.scheduler = s.engine.scheduler.takeCompletedWithSeqIds.2 :=
    hc.scheduler
  simp only [hasPendingWork, Bool.or_eq_false_iff, Bool.not_eq_false', List.isEmpty_iff,
    Std.ExtTreeMap.isEmpty_iff] at hdone
  obtain ⟨⟨hpending, hprefill⟩, hdecode⟩ := hdone
  have hids : s.collect.engine.scheduler.ids = [] := by
    simp [hscheduler, takeCompletedWithSeqIds, ids, hpending, hprefill, hdecode]
  refine ⟨⟨?_, ?_, ?_, ?_⟩, ?_⟩
  · simp [hscheduler, takeCompletedWithSeqIds, hasPendingWork, hpending, hprefill, hdecode]
  · rw [hscheduler]
    rfl
  · refine hi.sound.wf.usedBlocks_of_idle ?_
    simp [hscheduler, takeCompletedWithSeqIds, numActiveSequences, hprefill, hdecode]
  · refine IdMap.eq_empty_iff.2 fun id => hi.decoder_none ?_
    simp [hids]
  · have hplaces := hi.places
    rwa [hids, List.nil_append] at hplaces

/-- What `run` returns was reached by collecting and stepping. -/
theorem run_acts (hA : Answering σ answer R) {fuel : Nat} {results : List CompletedRequest}
    {e : InferenceEngine σ τ δ} (h : s.Steady answer R x)
    (hrun : InferenceEngine.run fuel s.engine = some (results, e)) :
    ∃ s', ReflTransGen Act s s' ∧ s'.engine.scheduler.hasPendingWork = false ∧
      s'.collect.engine = e ∧ s'.collect.reports = s.reports ++ results := by
  have hfirst := h.collect hA
  have hengine : s.engine.collectCompletedRequests.2 = s.collect.engine := rfl
  rw [InferenceEngine.run] at hrun
  dsimp only at hrun
  rw [hengine] at hrun
  split at hrun
  next => simp at hrun
  next all e' hloop =>
    obtain ⟨s', hacts, rfl, hdone, new, hnew, hall⟩ := runLoop_acts hA hfirst hloop
    obtain ⟨rfl, rfl⟩ := Prod.mk.inj (Option.some.inj hrun)
    refine ⟨s', .head (.collect s) hacts, hdone, rfl, ?_⟩
    rw [hall]
    simp only [Session.collect, hnew, List.append_assoc]

theorem run_terminates (hA : Answering σ answer R) (h : s.Steady answer R x) {fuel : Nat}
    (hfuel : s.collect.remaining * (InferenceEngine.stallLimit + 1) +
      InferenceEngine.stallLimit < fuel) :
    ∃ results e, InferenceEngine.run fuel s.engine = some (results, e) := by
  have hturns : s.collect.remaining * (InferenceEngine.stallLimit + 1) +
      (InferenceEngine.stallLimit - 0) < fuel := hfuel
  obtain ⟨⟨all, e⟩, hloop⟩ := runLoop_terminates hA
    s.engine.collectCompletedRequests.1.1 (h.collect hA) hturns
  have hengine : s.engine.collectCompletedRequests.2 = s.collect.engine := rfl
  rw [InferenceEngine.run]
  dsimp only
  rw [hengine, hloop]
  exact ⟨_, _, rfl⟩

/-- Every step returns events, and every run ends with one report for each request. -/
structure Answers (s : Session σ τ δ) : Prop where
  steps : ∃ events, s.engine.stepEvents.1 = .ok events
  run : ∃ bound, ∀ fuel > bound, ∃ results e, s.engine.run fuel = some (results, e) ∧
    ((s.reports ++ results).map (·.requestId)).Perm (s.admitted.map (·.id)) ∧ Idle e
  once : (s.admitted.map (·.id)).Nodup

theorem answers_of_reachable {config : EngineConfig} {tokenizer : τ} {gpuExecutor : σ}
    (h : s.Reachable config tokenizer gpuExecutor) : s.Answers := by
  have hsteady := h.steady
  obtain ⟨events, hstep, -⟩ := step_spec hsteady.inv.sound
  refine ⟨⟨events, congrArg Prod.fst hstep⟩, ?_, hsteady.inv.once⟩
  refine ⟨s.collect.remaining * (InferenceEngine.stallLimit + 1) + InferenceEngine.stallLimit,
    fun fuel hfuel => ?_⟩
  obtain ⟨results, e, hrun⟩ := run_terminates (Answering.any σ) hsteady hfuel
  obtain ⟨s', hacts, hdone, rfl, hreports⟩ := run_acts (Answering.any σ) hsteady hrun
  obtain ⟨hidle, hperm⟩ :=
    (acts_steady (Answering.any σ) hsteady hacts).idle_collect (Answering.any σ) hdone
  rw [acts_admitted_eq hacts, hreports] at hperm
  exact ⟨results, _, hrun, hperm, hidle⟩

theorem answers_of_reachable_small : smallSession.Answers :=
  answers_of_reachable smallSession_reachable

end Session

end PagedServing
