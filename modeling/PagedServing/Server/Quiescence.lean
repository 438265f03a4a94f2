import PagedServing.Server.Pacing

/-! # The loop comes to rest

While nobody submits anything, every step of the loop lowers what remains to be done, the
turns that may still be idle, or what is left of the turn. So the loop gets to where it waits.
-/

namespace PagedServing

open Relation

namespace Session

/-- A step that reports nobody leaves whoever was waiting. -/
theorem Brings.hasPendingWork {σ τ δ : Type} {s s' : Session σ τ δ} {chunks : List StepChunk}
    (hb : s.Brings chunks [] s') (hs : s.engine.scheduler.Sound)
    (h : s.engine.scheduler.hasPendingWork = true) :
    s'.engine.scheduler.hasPendingWork = true := by
  obtain ⟨id, hid⟩ := Scheduler.exists_unfinished hs.wf h
  rcases hb.unfinished id hid with hid | hid
  · exact hid.hasPendingWork
  · cases hid

variable {σ τ δ : Type} [GPUExecutorTrait σ] [IncrementalDecoder δ] [TokenizerTrait τ δ]
  {x : Setting τ} {answer : List TokenId → TokenId → Prop} {R : σ → Fed → Prop}
  {s : Session σ τ δ}

/-- A submission adds at most the rank of its request to what remains to be done. -/
theorem submit_remaining_le (hi : s.Inv answer R x) (text : String) (params : GenerationParams) :
    (s.submit text params).remaining ≤ s.remaining + (params.maxTokens.toNat + 2) := by
  rcases s.submit_cases text params with ⟨sch, hrun, rfl | rfl⟩ | ⟨inputTokens, -, -, hrun⟩
  · rw [hrun]
    exact Nat.le_add_right _ _
  · rw [hrun]
    exact Nat.le_add_right _ _
  · rw [hrun, remaining, remaining, List.map_append, List.sum_append]
    refine Nat.add_le_add (List.sum_le_sum fun r hr => ?_) ?_
    · have hne : r.id ≠ s.engine.scheduler.nextSeqId := (hi.admits r hr).2.ne
      have hpending : r.id ∈ (s.engine.admitted inputTokens params).scheduler.pendingQueue.map
          (·.seqId) ↔ r.id ∈ s.engine.scheduler.pendingQueue.map (·.seqId) := by
        simp only [InferenceEngine.admitted, Scheduler.enqueue, List.map_append, List.mem_append,
          List.map_singleton, List.mem_singleton]
        exact or_iff_left hne
      rw [InferenceEngine.rank, InferenceEngine.rank, if_congr hpending rfl rfl]
      exact Nat.le_refl _
    · have hpending : s.engine.nextRequestId ∈
          (s.engine.admitted inputTokens params).scheduler.pendingQueue.map (·.seqId) := by
        rw [hi.numbering]
        exact List.mem_map.2 ⟨_, List.mem_append_right _ List.mem_cons_self, rfl⟩
      rw [List.map_singleton, List.sum_singleton, InferenceEngine.rank]
      exact (if_pos hpending).le

/-- A step that brings something, or after which something is active, was of use. -/
theorem brings_remaining_lt {chunks : List StepChunk} {reports : List CompletedRequest}
    (hA : Answering σ answer R) (h : s.Steady answer R x) (hb : s.Brings chunks reports s.step)
    (hmoved : reports ≠ [] ∨ chunks ≠ [] ∨ 0 < s.step.engine.scheduler.numActiveSequences) :
    s.step.remaining < s.remaining := by
  by_contra hno
  have hidle := mt (step_remaining_lt hA h) hno
  simp only [not_or, not_not, Nat.not_lt, Nat.le_zero] at hidle
  have hchunks := (Idles.stalled ⟨hidle.1, hidle.2⟩ hA h).2
  rw [hb.reported, List.append_right_eq_self] at hidle
  rw [hb.streamed, List.append_right_eq_self] at hchunks
  rcases hmoved with hmoved | hmoved | hmoved
  · exact hmoved hidle.1
  · exact hmoved hchunks
  · exact hmoved.ne' hidle.2

theorem failPending_remaining (hA : Answering σ answer R) (hi : s.Inv answer R x) (reason : String) :
    (s.apply (.failPendingRequests reason)).collect.remaining ≤ s.remaining ∧
      (s.engine.scheduler.pendingQueue ≠ [] →
        (s.apply (.failPendingRequests reason)).collect.remaining < s.remaining) := by
  have hfail : Stage x answer R s (s.apply (.failPendingRequests reason)) :=
    failPending_stage hi.sound hi.idle reason
  have hmid := hi.stage hfail
  have hcollect := collect_stage hA hmid.sound hmid.idle hmid.setting
  have hle := hfail.remaining_le hi
  refine ⟨(hcollect.remaining_le hmid).trans hle, fun hpending => ?_⟩
  refine (collect_remaining_lt hA hmid fun hnone => hpending ?_).trans_le hle
  exact List.map_eq_nil_iff.1 (List.append_eq_nil_iff.1 hnone).2

end Session

/-! ## The measure -/

instance (locals : TurnLocals) (s : Scheduler) : Decidable (locals.Moved s) :=
  inferInstanceAs (Decidable (_ ∨ _ ∨ _))

/-- How far a turn is from its end. -/
def Phase.rank : Phase → Nat
  | .returned => 0
  | .judging _ => 1
  | .dispatching _ => 2
  | .cancelling _ => 3
  | .sending _ => 4
  | .drain => 5
  | .recv => 6
  | .top => 7
  | .publishing => 8
  | .stalled _ => 9

def Phase.size : Phase → Nat
  | .sending locals => locals.chunks.length
  | .cancelling locals => locals.disconnected.length
  | .dispatching locals => locals.completed.length
  | .stalled rest => rest.length
  | _ => 0

namespace Server

variable {σ τ δ : Type} {v v' : Server σ τ δ} {s s' : Session σ τ δ}

/-- A submission is worth more than the request it may become. -/
def work (v : Server σ τ δ) (s : Session σ τ δ) : Nat :=
  s.remaining + (v.submissions.map fun submission => submission.params.maxTokens.toNat + 3).sum

/-- The turns that may still be idle; one more when this turn has moved somebody or when
nobody waits, since the counter starts anew then. -/
def idleTurns (v : Server σ τ δ) (moved : Prop) [Decidable moved] : Nat :=
  if moved ∨ v.engine.scheduler.hasPendingWork = false then InferenceEngine.stallLimit + 1
  else InferenceEngine.stallLimit - v.idleSteps

def turns (v : Server σ τ δ) : Nat :=
  match v.phase with
  | .drain => v.idleTurns False
  | .sending locals => v.idleTurns (locals.Moved v.engine.scheduler)
  | .cancelling locals => v.idleTurns (locals.Moved v.engine.scheduler)
  | .dispatching locals => v.idleTurns (locals.Moved v.engine.scheduler)
  | .judging progressed => v.idleTurns (progressed = true)
  | .stalled _ => InferenceEngine.stallLimit
  | _ => InferenceEngine.stallLimit - v.idleSteps

/-- What a client may still do: take what is queued for it, and go away. -/
def attention (v : Server σ τ δ) : Nat :=
  (v.clients.map fun c => c.events.queue.length + c.events.connected.toNat).sum + v.accepting.toNat

def measure (v : Server σ τ δ) (s : Session σ τ δ) : Nat × Nat × Nat × Nat × Nat :=
  (v.work s, v.turns, v.phase.rank, v.phase.size, v.attention)

def Shrinks : Nat × Nat × Nat × Nat × Nat → Nat × Nat × Nat × Nat × Nat → Prop :=
  Prod.Lex (· < ·) (Prod.Lex (· < ·) (Prod.Lex (· < ·) (Prod.Lex (· < ·) (· < ·))))

private theorem lex_of_le {β : Type} {r : β → β → Prop} {m n : Nat} {b b' : β} (hle : m ≤ n)
    (h : r b b') : Prod.Lex (· < ·) r (m, b) (n, b') := by
  rcases Nat.lt_or_eq_of_le hle with hlt | rfl
  · exact .left _ _ hlt
  · exact .right _ h

theorem shrinks_of_work (h : v'.work s' < v.work s) : Shrinks (v'.measure s') (v.measure s) :=
  .left _ _ h

theorem shrinks_of_turns (hwork : v'.work s' ≤ v.work s) (h : v'.turns < v.turns) :
    Shrinks (v'.measure s') (v.measure s) := lex_of_le hwork (.left _ _ h)

theorem shrinks_of_rank (hwork : v'.work s' ≤ v.work s) (hturns : v'.turns ≤ v.turns)
    (h : v'.phase.rank < v.phase.rank) : Shrinks (v'.measure s') (v.measure s) :=
  lex_of_le hwork (lex_of_le hturns (.left _ _ h))

theorem shrinks_of_size (hwork : v'.work s' ≤ v.work s) (hturns : v'.turns ≤ v.turns)
    (hrank : v'.phase.rank = v.phase.rank) (h : v'.phase.size < v.phase.size) :
    Shrinks (v'.measure s') (v.measure s) :=
  lex_of_le hwork (lex_of_le hturns (lex_of_le hrank.le (.left _ _ h)))

theorem work_le (hsub : v'.submissions = v.submissions) (h : s'.remaining ≤ s.remaining) :
    v'.work s' ≤ v.work s := by
  rw [work, work, hsub]
  exact Nat.add_le_add_right h _

/-! ## Every step shrinks it -/

theorem client_shrinks (hstep : v.ClientStep v') : Shrinks (v'.measure s) (v.measure s) := by
  have hlast : v'.attention < v.attention := by
    cases hstep with
    | receive hclient hreceive =>
        obtain ⟨-, hconnected, hqueue⟩ := Channel.receive_eq_some hreceive
        refine Nat.add_lt_add_right (sum_modify_lt hclient ?_) _
        rw [hconnected]
        exact Nat.add_lt_add_right hqueue _
    | @disconnect client c hclient hopen =>
        refine Nat.add_lt_add_right (sum_modify_lt hclient ?_) _
        rw [hopen]
        exact Nat.succ_pos c.events.queue.length
    | close hopen =>
        rw [attention, attention, hopen]
        exact Nat.lt_succ_self _
  have hsame : v'.work s = v.work s ∧ v'.turns = v.turns ∧ v'.phase = v.phase := by
    cases hstep <;> exact ⟨rfl, rfl, rfl⟩
  obtain ⟨hwork, hturns, hphase⟩ := hsame
  exact lex_of_le hwork.le (lex_of_le hturns.le (lex_of_le (by rw [hphase])
    (lex_of_le (by rw [hphase]) hlast)))

variable [GPUExecutorTrait σ] [IncrementalDecoder δ] [TokenizerTrait τ δ] {x : Setting τ}

/-- A step that moves nobody leaves the idle turns as they are. -/
theorem stepped_shrinks {events : StepEvents} (hf : v.Follows x s) (hphase : v.phase = .drain)
    (hevents : s.engine.stepEvents = (.ok events, s.step.engine)) :
    Shrinks
      (({ v with
          engine := s.step.engine
          phase := .sending
            { chunks := events.chunks
              completed := events.completed
              completedLen := events.completed.length
              chunksLen := events.chunks.length } } : Server σ τ δ).measure s.step)
      (v.measure s) := by
  obtain ⟨events', hevents', hb⟩ :=
    Session.step_brings (Answering.any σ) hf.steady.inv hf.steady.settled
  rw [hevents] at hevents'
  cases hevents'
  by_cases hmoved : TurnLocals.Moved
    { chunks := events.chunks
      completed := events.completed
      completedLen := events.completed.length
      chunksLen := events.chunks.length } s.step.engine.scheduler
  · refine shrinks_of_work (Nat.add_lt_add_right ?_ _)
    refine Session.brings_remaining_lt (Answering.any σ) hf.steady hb ?_
    simpa only [TurnLocals.Moved, List.length_pos_iff] using hmoved
  · refine shrinks_of_rank (work_le rfl (Session.step_remaining_le (Answering.any σ) hf.steady)) ?_
      (by rw [hphase]; simp [Phase.rank])
    have hreports : events.completed = [] := by
      by_contra hne
      exact hmoved (.inl (List.length_pos_iff.2 hne))
    rw [hreports] at hb
    have hkept := hb.hasPendingWork hf.steady.inv.sound
    rw [← hf.engine] at hkept
    rw [turns, turns, hphase]
    simp only [idleTurns, hmoved, false_or]
    cases hwork : v.engine.scheduler.hasPendingWork with
    | true => simp [hkept hwork]
    | false =>
        rw [if_pos rfl]
        split
        · exact le_rfl
        · exact (Nat.sub_le _ _).trans (Nat.le_succ _)

/-- Whoever has turned out to be gone was sent a chunk in this turn. -/
theorem cancel_shrinks {locals : TurnLocals} {id : RequestId} {rest : List RequestId}
    (hf : v.Follows x s) (hpaced : v.Paced) (hphase : v.phase = .cancelling locals)
    (hids : locals.disconnected = id :: rest) :
    Shrinks
      (({ v.cancelDisconnected id with
          phase := .cancelling { locals with disconnected := rest } } : Server σ τ δ).measure
        (s.apply (.cancelRequest id)))
      (v.measure s) := by
  have hcancel : (s.apply (.cancelRequest id)).remaining ≤ s.remaining :=
    (Session.cancel_stage hf.steady.inv.sound hf.steady.inv.idle id).remaining_le hf.steady.inv
  refine shrinks_of_size (work_le rfl hcancel) ?_ (by rw [hphase]; rfl) ?_
  · have hfair := hpaced.phase
    rw [hphase] at hfair
    have hmoved := hfair.chunksLen_pos (.inr (hids ▸ List.cons_ne_nil _ _))
    have hturns : v.turns = InferenceEngine.stallLimit + 1 := by
      rw [turns, hphase]
      exact if_pos (.inl (.inr (.inl hmoved)))
    rw [hturns]
    exact (if_pos (.inl (.inr (.inl hmoved)))).le
  · rw [hphase, Phase.size, Phase.size, hids]
    exact Nat.lt_succ_self _

theorem gaveUp_shrinks (hf : v.Follows x s) (hpaced : v.Paced) (hphase : v.phase = .judging false)
    (hs' : s' = s.apply (.failPendingRequests InferenceEngine.stallReason)) :
    Shrinks
      (({ v with
          engine := s'.collect.engine
          idleSteps := v.idleSteps + 1
          phase := .stalled s'.engine.collectCompletedRequests.1.1 } : Server σ τ δ).measure
        s'.collect)
      (v.measure s) := by
  obtain ⟨hle, hlt⟩ := Session.failPending_remaining (Answering.any σ) hf.steady.inv
    InferenceEngine.stallReason
  have hstalled := hpaced.phase
  rw [hphase] at hstalled
  subst hs'
  cases hwork : v.engine.scheduler.hasPendingWork with
  | true =>
      refine shrinks_of_work (Nat.add_lt_add_right (hlt ?_) _)
      rw [← hf.engine]
      exact (hstalled rfl).stalled.pending hwork
  | false =>
      refine shrinks_of_turns (work_le rfl hle) ?_
      have hturns : v.turns = InferenceEngine.stallLimit + 1 := by
        rw [turns, hphase]
        exact if_pos (.inr hwork)
      rw [hturns]
      exact Nat.lt_succ_self _

theorem loop_shrinks (hf : v.Follows x s) (hpaced : v.Paced) (hstep : v.LoopStep s v' s') :
    Shrinks (v'.measure s') (v.measure s) := by
  have hidle := hpaced.idle
  cases hstep with
  | work hphase hwork =>
      refine shrinks_of_rank (work_le rfl le_rfl) ?_ (by rw [hphase]; simp [Phase.rank])
      simp [turns, idleTurns, hphase, hwork]
  | wait hphase hwork =>
      refine shrinks_of_rank (work_le rfl le_rfl) ?_ (by rw [hphase]; simp [Phase.rank])
      simp [turns, hphase]
  | close hphase =>
      refine shrinks_of_rank (work_le rfl le_rfl) ?_ (by rw [hphase]; simp [Phase.rank])
      simp [turns, hphase]
  | @accept submission rest _ hsub =>
      refine shrinks_of_work ?_
      have hle := Session.submit_remaining_le hf.steady.inv submission.prompt submission.params
      rw [Server.work, Server.work, submissions_admitSubmission, hsub, List.map_cons, List.sum_cons]
      dsimp only
      omega
  | step hphase _ hevents => exact stepped_shrinks hf hphase hevents
  | @send locals chunk rest hphase hchunks =>
      obtain ⟨disconnected, hsent⟩ := phase_sendChunk v { locals with chunks := rest } chunk
      refine shrinks_of_size (work_le (submissions_sendChunk _ _ _) le_rfl) ?_ ?_ ?_
      · rw [turns, turns, hsent, hphase]
        simp only [idleTurns, engine_sendChunk, idleSteps_sendChunk, TurnLocals.Moved]
        exact le_rfl
      · rw [hsent, hphase]
        rfl
      · rw [hsent, hphase, Phase.size, Phase.size, hchunks]
        exact Nat.lt_succ_self _
  | sent hphase =>
      refine shrinks_of_rank (work_le rfl le_rfl) ?_ (by rw [hphase]; simp [Phase.rank])
      rw [turns, turns, hphase]
      exact le_rfl
  | cancel hphase hids => exact cancel_shrinks hf hpaced hphase hids
  | cancelled hphase =>
      refine shrinks_of_rank (work_le rfl le_rfl) ?_ (by rw [hphase]; simp [Phase.rank])
      rw [turns, turns, hphase]
      exact le_rfl
  | dispatch hphase hcompleted =>
      refine shrinks_of_size (work_le (submissions_dispatchCompleted _ _) le_rfl) ?_
        (by rw [hphase]; rfl) ?_
      · rw [turns, turns, hphase]
        simp only [idleTurns, engine_dispatchCompleted, idleSteps_dispatchCompleted,
          TurnLocals.Moved]
        exact le_rfl
      · rw [hphase, Phase.size, Phase.size, hcompleted]
        exact Nat.lt_succ_self _
  | dispatched hphase =>
      refine shrinks_of_rank (work_le rfl le_rfl) ?_ (by rw [hphase]; simp [Phase.rank])
      rw [turns, turns, hphase]
      simp only [idleTurns, TurnLocals.Moved, Bool.or_eq_true, decide_eq_true_eq, or_assoc]
      exact le_rfl
  | progressed hphase =>
      refine shrinks_of_turns (work_le rfl le_rfl) ?_
      have hturns : v.turns = InferenceEngine.stallLimit + 1 := by
        rw [turns, hphase]
        exact if_pos (.inl rfl)
      rw [hturns]
      exact Nat.lt_succ_self _
  | idled hphase hlimit =>
      refine shrinks_of_turns (work_le rfl le_rfl) ?_
      rw [turns, turns, hphase]
      simp only [idleTurns]
      split <;> omega
  | gaveUp hphase _ hs' => exact gaveUp_shrinks hf hpaced hphase hs'
  | route hphase =>
      refine shrinks_of_size (work_le (submissions_dispatchCompleted _ _) le_rfl) ?_
        (by rw [hphase]; rfl) ?_
      · rw [turns, turns, hphase]
      · rw [hphase]
        exact Nat.lt_succ_self _
  | routed hphase =>
      refine shrinks_of_rank (work_le rfl le_rfl) ?_ (by rw [hphase]; simp [Phase.rank])
      rw [turns, turns, hphase]
      exact Nat.sub_le _ _
  | publish hphase =>
      refine shrinks_of_rank (work_le rfl le_rfl) ?_ (by rw [hphase]; simp [Phase.rank])
      rw [turns, turns, hphase]

/-- Whatever the loop and the clients do, they cannot go on for ever without a submission. -/
theorem Follows.acc_quiet (hf : v.Follows x s) (hpaced : v.Paced) :
    Acc (fun v' v : Server σ τ δ => Quiet v v') v := by
  have hwf : WellFounded Shrinks :=
    WellFounded.prod_lex Nat.lt_wfRel.wf <| WellFounded.prod_lex Nat.lt_wfRel.wf <|
      WellFounded.prod_lex Nat.lt_wfRel.wf <| WellFounded.prod_lex Nat.lt_wfRel.wf Nat.lt_wfRel.wf
  induction hm : v.measure s using hwf.induction generalizing v s with
  | _ m ih =>
    subst hm
    refine .intro v fun v' hquiet => ?_
    cases hquiet with
    | loop hloop =>
        obtain ⟨s', hstep⟩ := loopStep_of_eq hf hloop
        exact ih _ (loop_shrinks hf hpaced hstep) (hf.loop hstep) (hpaced.loop hf hstep) rfl
    | client hstep =>
        refine ih _ (client_shrinks hstep) (hf.of_engine ?_) (hpaced.clientStep hstep) rfl
        cases hstep <;> rfl

end Server

end PagedServing
