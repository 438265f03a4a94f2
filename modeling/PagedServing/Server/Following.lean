import PagedServing.Server.Events

/-! # The engine loop beside its session

All that the loop does to its engine are calls of a session, so that what holds of sessions
holds of the engine of every reachable server.
-/

namespace PagedServing

open Relation

namespace Server

section Effects

variable {σ τ δ : Type}

theorem phase_sendChunk (v : Server σ τ δ) (locals : TurnLocals) (chunk : StepChunk) :
    ∃ disconnected, (v.sendChunk locals chunk).phase =
      .sending { locals with disconnected := disconnected } := by
  rw [sendChunk]
  split
  · exact ⟨locals.disconnected, rfl⟩
  · exact ⟨_, rfl⟩

@[simp] theorem engine_sendChunk (v : Server σ τ δ) (locals : TurnLocals) (chunk : StepChunk) :
    (v.sendChunk locals chunk).engine = v.engine := by
  rw [sendChunk]
  split <;> rfl

@[simp] theorem idleSteps_sendChunk (v : Server σ τ δ) (locals : TurnLocals) (chunk : StepChunk) :
    (v.sendChunk locals chunk).idleSteps = v.idleSteps := by
  rw [sendChunk]
  split <;> rfl

@[simp] theorem submissions_sendChunk (v : Server σ τ δ) (locals : TurnLocals) (chunk : StepChunk) :
    (v.sendChunk locals chunk).submissions = v.submissions := by
  rw [sendChunk]
  split <;> rfl

@[simp] theorem engine_dispatchCompleted (v : Server σ τ δ) (completed : CompletedRequest) :
    (v.dispatchCompleted completed).engine = v.engine := by
  rw [dispatchCompleted]
  dsimp only
  split <;> rfl

@[simp] theorem idleSteps_dispatchCompleted (v : Server σ τ δ) (completed : CompletedRequest) :
    (v.dispatchCompleted completed).idleSteps = v.idleSteps := by
  rw [dispatchCompleted]
  dsimp only
  split <;> rfl

@[simp] theorem submissions_dispatchCompleted (v : Server σ τ δ) (completed : CompletedRequest) :
    (v.dispatchCompleted completed).submissions = v.submissions := by
  rw [dispatchCompleted]
  dsimp only
  split <;> rfl

variable [GPUExecutorTrait σ] [TokenizerTrait τ δ]

@[simp] theorem phase_admitSubmission (v : Server σ τ δ) (submission : Submission) :
    (v.admitSubmission submission).phase = v.phase := by
  rw [admitSubmission]
  rcases v.engine.submitRequest submission.prompt submission.params with ⟨err | ⟨id, n⟩, e⟩ <;> rfl

@[simp] theorem idleSteps_admitSubmission (v : Server σ τ δ) (submission : Submission) :
    (v.admitSubmission submission).idleSteps = v.idleSteps := by
  rw [admitSubmission]
  rcases v.engine.submitRequest submission.prompt submission.params with ⟨err | ⟨id, n⟩, e⟩ <;> rfl

@[simp] theorem submissions_admitSubmission (v : Server σ τ δ) (submission : Submission) :
    (v.admitSubmission submission).submissions = v.submissions := by
  rw [admitSubmission]
  rcases v.engine.submitRequest submission.prompt submission.params with ⟨err | ⟨id, n⟩, e⟩ <;> rfl

@[simp] theorem engine_admitSubmission (v : Server σ τ δ) (submission : Submission) :
    (v.admitSubmission submission).engine =
      (v.engine.submitRequest submission.prompt submission.params).2 := by
  rw [admitSubmission]
  rcases v.engine.submitRequest submission.prompt submission.params with ⟨err | ⟨id, n⟩, e⟩ <;> rfl

end Effects

variable {σ τ δ : Type} [GPUExecutorTrait σ] [IncrementalDecoder δ] [TokenizerTrait τ δ]

/-- A server after any steps of the loop and of its clients, from a fresh engine. -/
inductive Reachable (config : EngineConfig) (tokenizer : τ) (gpuExecutor : σ) :
    Server σ τ δ → Prop
  | start (hvalid : config.validate = .ok ()) :
      Reachable config tokenizer gpuExecutor
        (start (.ofComponents config tokenizer (Scheduler.new config) gpuExecutor))
  | step {v v' : Server σ τ δ} (h : Reachable config tokenizer gpuExecutor v)
      (hstep : Step v v') : Reachable config tokenizer gpuExecutor v'

/-- The server after so many steps of the loop. -/
def loopSteps : Nat → Server σ τ δ → Option (Server σ τ δ)
  | 0, v => some v
  | n + 1, v => v.loopStep.bind (loopSteps n)

theorem Reachable.loopSteps {config : EngineConfig} {tokenizer : τ} {gpuExecutor : σ} {n : Nat}
    {v v' : Server σ τ δ} (h : Reachable config tokenizer gpuExecutor v)
    (hrun : loopSteps n v = some v') : Reachable config tokenizer gpuExecutor v' := by
  induction n generalizing v with
  | zero => exact Option.some.inj hrun ▸ h
  | succ n ih =>
    obtain ⟨next, hnext, hrun⟩ := Option.bind_eq_some_iff.1 hrun
    exact ih (h.step (.quiet (.loop hnext))) hrun

/-! ## The steps of the loop -/

/-- What the loop can do next, and what becomes of the session of its engine. -/
inductive LoopStep (v : Server σ τ δ) (s : Session σ τ δ) : Server σ τ δ → Session σ τ δ → Prop
  | work (hphase : v.phase = .top) (h : v.engine.scheduler.hasPendingWork = true) :
      LoopStep v s { v with phase := .drain } s
  | wait (hphase : v.phase = .top) (h : v.engine.scheduler.hasPendingWork = false) :
      LoopStep v s { v with phase := .recv } s
  | close (hphase : v.phase = .recv) (hnone : v.submissions = []) (h : v.accepting = false) :
      LoopStep v s { v with phase := .returned } s
  | accept {submission : Submission} {rest : List Submission}
      (hphase : v.phase = .recv ∨ v.phase = .drain) (hsub : v.submissions = submission :: rest) :
      LoopStep v s { { v with submissions := rest }.admitSubmission submission with phase := .drain }
        (s.submit submission.prompt submission.params)
  | step {events : StepEvents} (hphase : v.phase = .drain) (hnone : v.submissions = [])
      (hevents : s.engine.stepEvents = (.ok events, s.step.engine)) :
      LoopStep v s
        { v with
          engine := s.step.engine
          phase := .sending
            { chunks := events.chunks
              completed := events.completed
              completedLen := events.completed.length
              chunksLen := events.chunks.length } }
        s.step
  | send {locals : TurnLocals} {chunk : StepChunk} {rest : List StepChunk}
      (hphase : v.phase = .sending locals) (hchunks : locals.chunks = chunk :: rest) :
      LoopStep v s (v.sendChunk { locals with chunks := rest } chunk) s
  | sent {locals : TurnLocals} (hphase : v.phase = .sending locals) (hnone : locals.chunks = []) :
      LoopStep v s { v with phase := .cancelling locals } s
  | cancel {locals : TurnLocals} {id : RequestId} {rest : List RequestId}
      (hphase : v.phase = .cancelling locals) (hids : locals.disconnected = id :: rest) :
      LoopStep v s
        { v.cancelDisconnected id with
          phase := .cancelling { locals with disconnected := rest } }
        (s.apply (.cancelRequest id))
  | cancelled {locals : TurnLocals} (hphase : v.phase = .cancelling locals)
      (hnone : locals.disconnected = []) : LoopStep v s { v with phase := .dispatching locals } s
  | dispatch {locals : TurnLocals} {completed : CompletedRequest} {rest : List CompletedRequest}
      (hphase : v.phase = .dispatching locals) (hcompleted : locals.completed = completed :: rest) :
      LoopStep v s
        { v.dispatchCompleted completed with
          phase := .dispatching { locals with completed := rest } } s
  | dispatched {locals : TurnLocals} (hphase : v.phase = .dispatching locals)
      (hnone : locals.completed = []) :
      LoopStep v s
        { v with phase := .judging (decide (0 < locals.completedLen) ||
            decide (0 < locals.chunksLen) || decide (0 < v.engine.scheduler.numActiveSequences)) }
        s
  | progressed (hphase : v.phase = .judging true) :
      LoopStep v s { v with idleSteps := 0, phase := .publishing } s
  | idled (hphase : v.phase = .judging false)
      (hlimit : v.idleSteps + 1 < InferenceEngine.stallLimit) :
      LoopStep v s { v with idleSteps := v.idleSteps + 1, phase := .publishing } s
  | gaveUp {s' : Session σ τ δ} (hphase : v.phase = .judging false)
      (hlimit : InferenceEngine.stallLimit ≤ v.idleSteps + 1)
      (hs' : s' = s.apply (.failPendingRequests InferenceEngine.stallReason)) :
      LoopStep v s
        { v with
          engine := s'.collect.engine
          idleSteps := v.idleSteps + 1
          phase := .stalled s'.engine.collectCompletedRequests.1.1 }
        s'.collect
  | route {completed : CompletedRequest} {rest : List CompletedRequest}
      (hphase : v.phase = .stalled (completed :: rest)) :
      LoopStep v s { v.dispatchCompleted completed with phase := .stalled rest } s
  | routed (hphase : v.phase = .stalled []) :
      LoopStep v s { v with idleSteps := 0, phase := .publishing } s
  | publish (hphase : v.phase = .publishing) :
      LoopStep v s { v with metrics := .update v.engine.getMetrics, phase := .top } s

/-- The engine of the loop is that of a session. -/
structure Follows (x : Setting τ) (v : Server σ τ δ) (s : Session σ τ δ) : Prop where
  engine : v.engine = s.engine
  steady : s.Steady (fun _ _ => True) (fun _ _ => True) x
  booked : s.Booked
  noticed : s.Noticed

variable {x : Setting τ} {v v' : Server σ τ δ} {s s' : Session σ τ δ}

/-- These are all the steps of the loop. -/
theorem loopStep_of_eq (hf : v.Follows x s) (h : v.loopStep = some v') :
    ∃ s', v.LoopStep s v' s' := by
  rw [loopStep] at h
  split at h
  next hphase =>
    obtain rfl := Option.some.inj h
    split
    next hwork => exact ⟨s, .work hphase hwork⟩
    next hidle => exact ⟨s, .wait hphase (Bool.eq_false_iff.2 hidle)⟩
  next hphase =>
    split at h
    next submission rest hsub =>
      obtain rfl := Option.some.inj h
      exact ⟨_, .accept (.inl hphase) hsub⟩
    next hnone =>
      split at h
      next => cases h
      next hclosed =>
        obtain rfl := Option.some.inj h
        exact ⟨s, .close hphase hnone (Bool.eq_false_iff.2 hclosed)⟩
  next hphase =>
    split at h
    next submission rest hsub =>
      obtain rfl := Option.some.inj h
      have hsame : ({ v with submissions := rest }.admitSubmission submission).phase = .drain :=
        (phase_admitSubmission _ _).trans hphase
      have hstep := LoopStep.accept (s := s) (.inr hphase) hsub
      rw [← hsame] at hstep
      exact ⟨_, hstep⟩
    next hnone =>
      obtain rfl := Option.some.inj h
      obtain ⟨events, hevents, -⟩ :=
        Session.step_brings (Answering.any σ) hf.steady.inv hf.steady.settled
      rw [stepEngine, hf.engine, hevents]
      exact ⟨_, .step hphase hnone hevents⟩
  next locals hphase =>
    split at h
    next chunk rest hchunks =>
      obtain rfl := Option.some.inj h
      exact ⟨s, .send hphase hchunks⟩
    next hnone =>
      obtain rfl := Option.some.inj h
      exact ⟨s, .sent hphase hnone⟩
  next locals hphase =>
    split at h
    next id rest hids =>
      obtain rfl := Option.some.inj h
      exact ⟨_, .cancel hphase hids⟩
    next hnone =>
      obtain rfl := Option.some.inj h
      exact ⟨s, .cancelled hphase hnone⟩
  next locals hphase =>
    split at h
    next completed rest hcompleted =>
      obtain rfl := Option.some.inj h
      exact ⟨s, .dispatch hphase hcompleted⟩
    next hnone =>
      obtain rfl := Option.some.inj h
      exact ⟨s, .dispatched hphase hnone⟩
  next progressed hphase =>
    obtain rfl := Option.some.inj h
    cases progressed with
    | true => exact ⟨s, .progressed hphase⟩
    | false =>
        by_cases hlimit : InferenceEngine.stallLimit ≤ v.idleSteps + 1
        · rw [judge, if_neg Bool.false_ne_true, if_pos hlimit, hf.engine]
          exact ⟨_, .gaveUp hphase hlimit rfl⟩
        · rw [judge, if_neg Bool.false_ne_true, if_neg hlimit]
          exact ⟨s, .idled hphase (Nat.not_le.1 hlimit)⟩
  next rest hphase =>
    split at h
    next completed rest =>
      obtain rfl := Option.some.inj h
      exact ⟨s, .route hphase⟩
    next =>
      obtain rfl := Option.some.inj h
      exact ⟨s, .routed hphase⟩
  next hphase =>
    obtain rfl := Option.some.inj h
    exact ⟨s, .publish hphase⟩
  next => cases h

/-! ## The session of the loop -/

omit [GPUExecutorTrait σ] in
theorem Follows.of_engine (hf : v.Follows x s) (h : v'.engine = v.engine) : v'.Follows x s :=
  { hf with engine := h.trans hf.engine }

theorem Follows.of_apply (hf : v.Follows x s) (op : EngineOp)
    (h : v'.engine = (s.apply op).engine) : v'.Follows x (s.apply op) where
  engine := h
  steady := hf.steady.apply (.any σ) op
  booked := hf.booked.apply hf.steady.inv.sound op
  noticed := hf.noticed.apply hf.steady.inv (.any σ) hf.steady.settled op

theorem Follows.loop (hf : v.Follows x s) (h : v.LoopStep s v' s') : v'.Follows x s' := by
  cases h with
  | @accept submission rest _ _ =>
      refine hf.of_apply (.submitRequest submission.prompt submission.params) ?_
      rw [engine_admitSubmission, Session.apply, Session.engine_submit, ← hf.engine]
  | step => exact hf.of_apply .stepEvents rfl
  | @cancel locals id _ _ _ =>
      refine hf.of_apply (.cancelRequest id) ?_
      rw [cancelDisconnected, hf.engine]
      rfl
  | @gaveUp failed _ _ hs' =>
      have hfail : Follows x { v with engine := failed.engine }
          (s.apply (.failPendingRequests InferenceEngine.stallReason)) :=
        hf.of_apply _ (congrArg Session.engine hs')
      rw [← hs'] at hfail
      exact ⟨rfl, hfail.steady.collect (.any σ), hfail.booked.collect,
        hfail.noticed.collect hfail.steady.inv.sound⟩
  | send => exact hf.of_engine (engine_sendChunk _ _ _)
  | dispatch => exact hf.of_engine (engine_dispatchCompleted _ _)
  | route => exact hf.of_engine (engine_dispatchCompleted _ _)
  | _ => exact hf.of_engine rfl

/-- What holds of a fresh server, and is kept by the loop and by the clients, holds of every
reachable server and the session of its engine. -/
theorem Reachable.follows {config : EngineConfig} {tokenizer : τ} {gpuExecutor : σ}
    {P : Server σ τ δ → Session σ τ δ → Prop} (h : Reachable config tokenizer gpuExecutor v)
    (hstart : P (Server.start (Session.new config tokenizer gpuExecutor).engine)
      (Session.new config tokenizer gpuExecutor))
    (hloop : ∀ {v v' : Server σ τ δ} {s s' : Session σ τ δ},
      v.Follows (Session.settingOf config tokenizer) s → P v s → v.LoopStep s v' s' → P v' s')
    (hclient : ∀ {v v' : Server σ τ δ} {s : Session σ τ δ}, P v s → ClientStep v v' → P v' s)
    (hsubmit : ∀ {v : Server σ τ δ} {s : Session σ τ δ} (prompt : String)
      (params : GenerationParams), v.accepting = true → P v s → P (v.submit prompt params) s) :
    ∃ s, v.Follows (Session.settingOf config tokenizer) s ∧ P v s := by
  induction h with
  | start hvalid =>
    have hnew : (Session.new config tokenizer gpuExecutor : Session σ τ δ).Reachable config
        tokenizer gpuExecutor := ⟨hvalid, [], rfl⟩
    exact ⟨_, ⟨rfl, hnew.steady, Session.booked_new _ _ _, Session.noticed_new _ _ _⟩, hstart⟩
  | step _ hstep ih =>
    obtain ⟨s, hf, hP⟩ := ih
    cases hstep with
    | submit prompt params hopen _ => exact ⟨s, hf.of_engine rfl, hsubmit prompt params hopen hP⟩
    | quiet hquiet =>
      cases hquiet with
      | client hstep =>
          refine ⟨s, hf.of_engine ?_, hclient hP hstep⟩
          cases hstep <;> rfl
      | loop hstep =>
          obtain ⟨s', hstep⟩ := loopStep_of_eq hf hstep
          exact ⟨s', hf.loop hstep, hloop hf hP hstep⟩

end Server

end PagedServing
