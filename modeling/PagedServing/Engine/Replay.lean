import PagedServing.Engine.Notices
import PagedServing.Executor.Series

/-! # The call log replayed

The pipeline is the only one who talks to its backend: making the calls of the log
again, on the backend the engine was given, gives the same answers and the same state.
-/

namespace PagedServing

namespace BatchExecutionPipeline

variable {σ : Type} [GPUExecutorTrait σ] {p : BatchExecutionPipeline σ} {backend : σ}

def Replays (backend : σ) (p : BatchExecutionPipeline σ) : Prop :=
  runCalls (p.calls.map BackendCall.call) backend = (p.calls, p.gpuExecutor)

/-- The beginning of a log is the log of its own calls. -/
theorem Replays.of_prefix (h : p.Replays backend) {calls : List BackendCall}
    (hcalls : calls <+: p.calls) :
    (runCalls (calls.map BackendCall.call) backend).1 = calls := by
  obtain ⟨later, hlater⟩ := hcalls
  rw [Replays, ← hlater, List.map_append, runCalls_append] at h
  refine List.append_inj_left (Prod.mk.inj h).1 ?_
  rw [runCalls_length, List.length_map]

theorem Replays.attempt (h : p.Replays backend) (batch : ExecutionBatch) :
    (p.attempt batch).2.Replays backend := by
  rw [Replays] at h
  rw [Replays, BatchExecutionPipeline.attempt, List.map_append, runCalls_append, h]
  rfl

theorem Replays.sequencesFinished (h : p.Replays backend) (ids : List SeqId) :
    (p.sequencesFinished ids).Replays backend := by
  rw [Replays] at h
  rw [Replays, BatchExecutionPipeline.sequencesFinished, List.map_append, runCalls_append, h]
  rfl

theorem Replays.executeLoop (h : p.Replays backend) (batch : ExecutionBatch) (retrySafe : Bool)
    (n : Nat) : (executeLoop batch retrySafe n p).2.Replays backend := by
  induction n generalizing p with
  | zero =>
      have hattempt := h.attempt batch
      rw [BatchExecutionPipeline.executeLoop]
      split
      next heq => rwa [heq] at hattempt
      next heq => rwa [heq] at hattempt
  | succ n ih =>
      have hattempt := h.attempt batch
      rw [BatchExecutionPipeline.executeLoop]
      split
      next heq => rwa [heq] at hattempt
      next heq =>
        rw [heq] at hattempt
        split
        · exact ih hattempt
        · exact hattempt
      next heq => rwa [heq] at hattempt

theorem Replays.execute (h : p.Replays backend) (o : SchedulerOutput) :
    (p.execute o).2.Replays backend := by
  rw [BatchExecutionPipeline.execute]
  split
  · exact h
  · split
    · exact h
    · split
      · exact h
      · exact h.executeLoop ..

end BatchExecutionPipeline

namespace Session

variable {σ τ δ : Type} [IncrementalDecoder δ] [TokenizerTrait τ δ] [GPUExecutorTrait σ]
  {x : Setting τ} {answer : List TokenId → TokenId → Prop} {R : σ → Fed → Prop}
  {s : Session σ τ δ} {backend : σ}

/-- A step calls the backend through `execute` at most. -/
theorem advance_pipeline (hi : s.Inv answer R x) :
    s.advance.engine.executionPipeline =
      if s.engine.output.isEmpty then s.engine.executionPipeline
      else (s.engine.executionPipeline.execute s.engine.output).2 := by
  rw [advance, InferenceEngine.advance]
  split
  next => rfl
  next hempty =>
    have hsent := BatchExecutionPipeline.execute_cases (p := s.engine.executionPipeline)
      (Bool.eq_false_iff.2 hempty) hi.prompts
    rcases hexecute : s.engine.executionPipeline.execute s.engine.output with ⟨result, pipeline⟩
    rw [hexecute] at hsent
    cases result with
    | error e => rfl
    | ok output =>
        rcases hsent with ⟨e, heq⟩ | ⟨b, hsent⟩
        · cases heq
        · exact InferenceEngine.served_pipeline hi.sound hsent

def Replays (backend : σ) (s : Session σ τ δ) : Prop :=
  s.engine.executionPipeline.Replays backend

theorem Replays.advance (h : s.Replays backend) (hi : s.Inv answer R x) :
    s.advance.Replays backend := by
  rw [Replays, advance_pipeline hi]
  split
  · exact h
  · exact BatchExecutionPipeline.Replays.execute h _

theorem Replays.collect (h : s.Replays backend) (hs : s.engine.scheduler.Sound) :
    s.collect.Replays backend := by
  rw [Replays, Session.collect,
    (InferenceEngine.collectCompletedRequests_collected hs).executionPipeline]
  split
  · exact h
  · exact BatchExecutionPipeline.Replays.sequencesFinished h _

theorem Replays.apply (h : s.Replays backend) (hi : s.Inv answer R x)
    (hA : Answering σ answer R) (hsettled : Settled s.calls) (op : EngineOp) :
    (s.apply op).Replays backend := by
  cases op with
  | submitRequest text params =>
      rw [Replays, Session.apply, pipeline_submit]
      exact h
  | cancelRequest requestId => exact h
  | stepEvents =>
      rw [Session.apply, step_eq hi.sound]
      exact (h.advance hi).collect (hi.stage (advance_stage hA hi hsettled)).sound
  | failPendingRequests reason => exact h

theorem Reachable.replays {config : EngineConfig} {tokenizer : τ}
    (h : s.Reachable config tokenizer backend) : s.Replays backend :=
  h.keeps rfl fun _ op hi hsettled hreplays => hreplays.apply hi (.any σ) hsettled op

end Session

end PagedServing
