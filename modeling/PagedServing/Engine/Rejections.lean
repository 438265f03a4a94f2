import PagedServing.Engine.RunLoop
import PagedServing.Engine.Turn
import PagedServing.Library.Responder

/-! # Refused submissions

A submission that is refused changes at most the memory pressure flag, which nothing reads
that has not set it before. One that is accepted takes the next two ids.
-/

namespace PagedServing

open Relation Responder

namespace Scheduler

variable {s s' : Scheduler} {b : Bool}

/-! ## The flag -/

def withPressure (s : Scheduler) (b : Bool) : Scheduler := { s with underMemoryPressure := b }

theorem addRequest_withPressure (s : Scheduler) (b : Bool) (request : Request) :
    (s.withPressure b).addRequest request = s.addRequest request := rfl

theorem schedule_withPressure (s : Scheduler) (b : Bool) :
    (s.withPressure b).schedule = s.schedule := rfl

theorem retire_withPressure (s : Scheduler) (b : Bool) (id : SeqId) (state : RequestState) :
    (s.withPressure b).retire id state = (s.retire id state).map (·.withPressure b) := by
  simp only [retire, withPressure]
  split
  next => rfl
  next => split <;> rfl

theorem failSequence_withPressure (s : Scheduler) (b : Bool) (id : SeqId) (reason : String) :
    (s.withPressure b).failSequence id reason = (s.failSequence id reason).withPressure b := by
  rw [failSequence, failSequence, retire_withPressure]
  cases s.retire id (.failed reason) with
  | some s' => rfl
  | none =>
    have hqueue : (s.withPressure b).pendingQueue = s.pendingQueue := rfl
    simp only [Option.map_none, hqueue]
    cases s.pendingQueue.findIdx? (·.seqId = id) with
    | none => rfl
    | some index => cases hpending : s.pendingQueue[index]? <;> simp [hpending, withPressure]

theorem failByRequestId_withPressure (s : Scheduler) (b : Bool) (requestId : RequestId)
    (reason : String) :
    (s.withPressure b).failByRequestId requestId reason =
      ((s.failByRequestId requestId reason).1,
        (s.failByRequestId requestId reason).2.withPressure b) := by
  have hfind : (s.withPressure b).findSeqId requestId = s.findSeqId requestId := rfl
  rw [failByRequestId, failByRequestId, hfind]
  cases s.findSeqId requestId with
  | none => rfl
  | some id => simp only [failSequence_withPressure]

/-! ## The next sequence id -/

theorem Moves.nextSeqId_eq (h : Moves s s') : s'.nextSeqId = s.nextSeqId := by
  induction h with
  | refl => rfl
  | tail _ hmove ih => exact hmove.nextSeqId_eq.trans ih

theorem nextSeqId_growDecodeSequence (s : Scheduler) (id : SeqId) :
    (s.growDecodeSequence id).2.nextSeqId = s.nextSeqId := by
  rw [growDecodeSequence]
  split
  next => rfl
  next =>
    dsimp only
    split
    next => split <;> rfl
    next => rfl

theorem nextSeqId_tryStartPrefill (s : Scheduler) (id : SeqId) (request : Request) :
    (s.tryStartPrefill id request).2.nextSeqId = s.nextSeqId := by
  rw [tryStartPrefill]
  dsimp only
  split
  next => rfl
  next => split <;> rfl

theorem nextSeqId_scheduleDecode (ids : List SeqId) (st : ScheduleState) :
    (scheduleDecode ids st).scheduler.nextSeqId = st.scheduler.nextSeqId := by
  induction ids generalizing st with
  | nil => rfl
  | cons id rest ih =>
    have hgrow := nextSeqId_growDecodeSequence st.scheduler id
    rw [scheduleDecode]
    split
    next => rfl
    next =>
      split
      next => rfl
      next =>
        split
        next reason s heq =>
          rw [heq] at hgrow
          rw [ih]
          exact (failSequence_moves s id reason).nextSeqId_eq.trans hgrow
        next s heq =>
          rw [heq] at hgrow
          split <;> exact (ih _).trans hgrow

theorem nextSeqId_schedulePrefill (ids : List SeqId) (st : ScheduleState) :
    (schedulePrefill ids st).scheduler.nextSeqId = st.scheduler.nextSeqId := by
  induction ids generalizing st with
  | nil => rfl
  | cons id rest ih =>
    rw [schedulePrefill]
    split
    next => rfl
    next =>
      split
      next => exact ih st
      next =>
        dsimp only
        split
        next => exact (ih _).trans (failSequence_moves _ _ _).nextSeqId_eq
        next =>
          split
          next => exact (ih _).trans (failSequence_moves _ _ _).nextSeqId_eq
          next => split <;> exact ih _

theorem nextSeqId_considerPending (st : ScheduleState) (pending : PendingRequest) :
    (considerPending st pending).scheduler.nextSeqId = st.scheduler.nextSeqId := by
  have hstart := nextSeqId_tryStartPrefill st.scheduler pending.seqId pending.request
  rw [considerPending]
  split_ifs
  all_goals try rfl
  split
  next heq =>
    rw [heq] at hstart
    split <;> exact hstart
  next heq =>
    rw [heq] at hstart
    exact hstart

theorem nextSeqId_scanPending (n : Nat) (st : ScheduleState) :
    (scanPending n st).scheduler.nextSeqId = st.scheduler.nextSeqId := by
  induction n generalizing st with
  | zero => rfl
  | succ n ih =>
    rw [scanPending]
    split
    next => rfl
    next => exact (ih _).trans (nextSeqId_considerPending _ _)

theorem nextSeqId_schedule (s : Scheduler) : s.schedule.2.nextSeqId = s.nextSeqId := by
  have hpending (st : ScheduleState) :
      (schedulePending st).scheduler.nextSeqId = st.scheduler.nextSeqId := by
    rw [schedulePending]
    split
    next => rfl
    next => exact nextSeqId_scanPending _ _
  rw [schedule]
  exact (hpending _).trans ((nextSeqId_schedulePrefill _ _).trans (nextSeqId_scheduleDecode _ _))

end Scheduler

/-! ## Calls and replies -/

/-- The calls that the engine offers. -/
inductive EngineCall where
  | submitRequest (text : String) (params : GenerationParams)
  | cancelRequest (requestId : RequestId)
  | stepEvents
  | run (fuel : Nat)
  | failPendingRequests (reason : String)
  | collectCompletedRequests
  | hasPendingWork
  | getMetrics

inductive EngineReply where
  | submitted (result : Except EngineError (RequestId × Nat))
  | cancelled (found : Bool)
  | stepped (result : Except EngineError StepEvents)
  | ran (completed : Option (List CompletedRequest)) -- `none` when the fuel runs out
  | failedPending (count : Nat)
  | collected (events : List CompletedRequest × List StepChunk)
  | pendingWork (answer : Bool)
  | metrics (metrics : EngineMetrics)

/-- The reply to an accepted submission. -/
def EngineReply.accepts : EngineReply → Bool
  | .submitted (.ok _) => true
  | _ => false

namespace InferenceEngine

variable {σ τ δ : Type}

def withPressure (e : InferenceEngine σ τ δ) (b : Bool) : InferenceEngine σ τ δ :=
  { e with scheduler := e.scheduler.withPressure b }

/-- Engines that differ in the memory pressure flag at most. -/
def Alike (e e' : InferenceEngine σ τ δ) : Prop := ∃ b, e = e'.withPressure b

theorem Alike.refl (e : InferenceEngine σ τ δ) : e.Alike e := ⟨e.scheduler.underMemoryPressure, rfl⟩

/-! ## The flag is not observed -/

theorem cancelRequest_withPressure (e : InferenceEngine σ τ δ) (b : Bool)
    (requestId : RequestId) :
    (e.withPressure b).cancelRequest requestId =
      ((e.cancelRequest requestId).1, (e.cancelRequest requestId).2.withPressure b) := by
  have hfail := Scheduler.failByRequestId_withPressure e.scheduler b requestId
    (cancelReasonPrefix ++ ": client disconnected")
  have hcancel : (e.withPressure b).scheduler.cancelByRequestId requestId =
      ((e.scheduler.cancelByRequestId requestId).1,
        (e.scheduler.cancelByRequestId requestId).2.withPressure b) := hfail
  rw [cancelRequest, cancelRequest, hcancel]
  rfl

variable [GPUExecutorTrait σ] [TokenizerTrait τ δ]

theorem submitRequest_withPressure (e : InferenceEngine σ τ δ) (b : Bool) (text : String)
    (params : GenerationParams) :
    ((e.withPressure b).submitRequest text params).1 = (e.submitRequest text params).1 ∧
      ((e.withPressure b).submitRequest text params).2.Alike (e.submitRequest text params).2 := by
  have hpipeline : (e.withPressure b).executionPipeline = e.executionPipeline := rfl
  have htokenizer : (e.withPressure b).tokenizer = e.tokenizer := rfl
  have hconfig : (e.withPressure b).config = e.config := rfl
  have hid : (e.withPressure b).nextRequestId = e.nextRequestId := rfl
  have hadd (r : Request) : (e.withPressure b).scheduler.addRequest r = e.scheduler.addRequest r :=
    e.scheduler.addRequest_withPressure b r
  have hearly (err : EngineError) :
      ((Except.error err : Except EngineError (RequestId × Nat)) = .error err) ∧
        (e.withPressure b).Alike e := ⟨rfl, b, rfl⟩
  rw [submitRequest, submitRequest, hpipeline, htokenizer, hconfig, hid]
  cases params.validate with
  | error err => exact hearly err
  | ok u =>
    dsimp only
    split
    next => exact hearly _
    next =>
      split
      next => exact hearly _
      next =>
        cases TokenizerTrait.tryEncode e.tokenizer text with
        | error message => exact hearly _
        | ok inputTokens =>
          dsimp only
          split
          next => exact hearly _
          next =>
            split
            next => exact hearly _
            next =>
              -- the scheduler sets the flag before it reads it
              rw [hadd]
              split <;> exact ⟨rfl, Alike.refl _⟩

variable [IncrementalDecoder δ] {e e' : InferenceEngine σ τ δ}

def respond (e : InferenceEngine σ τ δ) : EngineCall → EngineReply × InferenceEngine σ τ δ
  | .submitRequest text params =>
      (.submitted (e.submitRequest text params).1, (e.submitRequest text params).2)
  | .cancelRequest requestId =>
      (.cancelled (e.cancelRequest requestId).1, (e.cancelRequest requestId).2)
  | .stepEvents => (.stepped e.stepEvents.1, e.stepEvents.2)
  | .run fuel =>
      match e.run fuel with
      | some (completed, e) => (.ran (some completed), e)
      | none => (.ran none, e)
  | .failPendingRequests reason =>
      (.failedPending (e.failPendingRequests reason).1, (e.failPendingRequests reason).2)
  | .collectCompletedRequests =>
      (.collected e.collectCompletedRequests.1, e.collectCompletedRequests.2)
  | .hasPendingWork => (.pendingWork e.scheduler.hasPendingWork, e)
  | .getMetrics => (.metrics e.getMetrics, e)

theorem collectCompletedRequests_withPressure (e : InferenceEngine σ τ δ) (b : Bool) :
    (e.withPressure b).collectCompletedRequests =
      (e.collectCompletedRequests.1, e.collectCompletedRequests.2.withPressure b) := by
  have hfold (reqs : List Request)
      (acc : InferenceEngine σ τ δ × List CompletedRequest × List StepChunk) :
      reqs.foldl collectOne (acc.1.withPressure b, acc.2) =
        ((reqs.foldl collectOne acc).1.withPressure b, (reqs.foldl collectOne acc).2) := by
    induction reqs generalizing acc with
    | nil => rfl
    | cons req rest ih => exact ih (collectOne acc req)
  have htaken : (e.withPressure b).scheduler.takeCompletedWithSeqIds =
      (e.scheduler.completedRequests,
        { e.scheduler.withPressure b with completedRequests := [] }) := rfl
  rw [collectCompletedRequests, collectCompletedRequests, htaken, Scheduler.takeCompletedWithSeqIds]
  dsimp only
  split
  next => rfl
  next =>
    have hall := hfold (e.scheduler.completedRequests.map (·.2))
      ({ e with
        scheduler := { e.scheduler with completedRequests := [] }
        executionPipeline :=
          e.executionPipeline.sequencesFinished (e.scheduler.completedRequests.map (·.1)) }, [], [])
    exact congrArg (fun acc : InferenceEngine σ τ δ × List CompletedRequest × List StepChunk =>
      ((acc.2.1, acc.2.2), acc.1)) hall

theorem stepEvents_withPressure (e : InferenceEngine σ τ δ) (b : Bool) :
    (e.withPressure b).stepEvents = e.stepEvents := by
  have hschedule : (e.withPressure b).scheduler.schedule = e.scheduler.schedule :=
    e.scheduler.schedule_withPressure b
  rw [stepEvents, stepEvents, hschedule]
  dsimp only [withPressure]

/-- Only a loop that ends before its first step still has the flag. -/
theorem runLoop_withPressure (fuel : Nat) (e : InferenceEngine σ τ δ) (b : Bool)
    (allCompleted : List CompletedRequest) (idleSteps : Nat) :
    runLoop fuel (e.withPressure b) allCompleted idleSteps =
        runLoop fuel e allCompleted idleSteps ∨
      (runLoop fuel e allCompleted idleSteps = some (allCompleted, e) ∧
        runLoop fuel (e.withPressure b) allCompleted idleSteps =
          some (allCompleted, e.withPressure b)) := by
  cases fuel with
  | zero => exact .inl rfl
  | succ fuel =>
    have hpending : (e.withPressure b).scheduler.hasPendingWork = e.scheduler.hasPendingWork := rfl
    rw [runLoop, runLoop, hpending, stepEvents_withPressure]
    split
    next => exact .inr ⟨rfl, rfl⟩
    next => exact .inl rfl

theorem run_withPressure (fuel : Nat) (e : InferenceEngine σ τ δ) (b : Bool) :
    (e.withPressure b).run fuel = e.run fuel ∨
      (e.withPressure b).run fuel = (e.run fuel).map fun r => (r.1, r.2.withPressure b) := by
  rw [run, run, collectCompletedRequests_withPressure]
  dsimp only
  rcases runLoop_withPressure fuel e.collectCompletedRequests.2 b
    e.collectCompletedRequests.1.1 0 with h | ⟨h, h'⟩
  · rw [h]
    exact .inl rfl
  · rw [h, h']
    dsimp only
    rw [collectCompletedRequests_withPressure]
    exact .inr rfl

theorem respond_withPressure (e : InferenceEngine σ τ δ) (b : Bool) (call : EngineCall) :
    (respond (e.withPressure b) call).1 = (respond e call).1 ∧
      Alike (respond (e.withPressure b) call).2 (respond e call).2 := by
  cases call with
  | submitRequest text params =>
    obtain ⟨hreply, halike⟩ := submitRequest_withPressure e b text params
    exact ⟨congrArg EngineReply.submitted hreply, halike⟩
  | cancelRequest requestId =>
    rw [respond, respond, cancelRequest_withPressure]
    exact ⟨rfl, b, rfl⟩
  | stepEvents =>
    rw [respond, respond, stepEvents_withPressure]
    exact ⟨rfl, Alike.refl _⟩
  | run fuel =>
    rw [respond, respond]
    rcases run_withPressure fuel e b with h | h
    · rw [h]
      cases e.run fuel with
      | none => exact ⟨rfl, b, rfl⟩
      | some r => exact ⟨rfl, Alike.refl _⟩
    · rw [h]
      cases e.run fuel with
      | none => exact ⟨rfl, b, rfl⟩
      | some r => exact ⟨rfl, b, rfl⟩
  | failPendingRequests reason => exact ⟨rfl, b, rfl⟩
  | collectCompletedRequests =>
    rw [respond, respond, collectCompletedRequests_withPressure]
    exact ⟨rfl, b, rfl⟩
  | hasPendingWork => exact ⟨rfl, b, rfl⟩
  | getMetrics => exact ⟨rfl, b, rfl⟩

/-- No calls tell alike engines apart. -/
theorem respondAll_alike (h : e.Alike e') (calls : List EngineCall) :
    (respondAll respond calls e).1 = (respondAll respond calls e').1 ∧
      (respondAll respond calls e).2.Alike (respondAll respond calls e').2 := by
  refine respondAll_of_indistinct (R := Alike) ?_ h calls
  rintro _ e' call ⟨b, rfl⟩
  exact respond_withPressure e' b call

end InferenceEngine

/-! ## The next ids -/

namespace InferenceEngine

variable {σ τ δ : Type}

/-- No id has been handed out between these engines. -/
structure SameNextIds (e e' : InferenceEngine σ τ δ) : Prop where
  nextRequestId : e'.nextRequestId = e.nextRequestId
  nextSeqId : e'.scheduler.nextSeqId = e.scheduler.nextSeqId

theorem SameNextIds.trans {e₁ e₂ e₃ : InferenceEngine σ τ δ} (h : SameNextIds e₁ e₂)
    (h' : SameNextIds e₂ e₃) : SameNextIds e₁ e₃ :=
  ⟨h'.nextRequestId.trans h.nextRequestId, h'.nextSeqId.trans h.nextSeqId⟩

theorem SameNextIds.foldl {β ι : Type} {engine : β → InferenceEngine σ τ δ} {f : β → ι → β}
    (hf : ∀ acc i, SameNextIds (engine acc) (engine (f acc i))) (is : List ι) (acc : β) :
    SameNextIds (engine acc) (engine (is.foldl f acc)) :=
  List.foldlRecOn (motive := fun last => SameNextIds (engine acc) (engine last)) is f ⟨rfl, rfl⟩
    fun last hlast i _ => hlast.trans (hf last i)

theorem scheduled_nextIds (e : InferenceEngine σ τ δ) : SameNextIds e e.scheduled :=
  ⟨rfl, Scheduler.nextSeqId_schedule _⟩

theorem applyStopSequences_nextIds [TokenizerTrait τ δ] (e : InferenceEngine σ τ δ)
    (generated : List (RequestId × TokenId)) : SameNextIds e (e.applyStopSequences generated) := by
  have hstop (e : InferenceEngine σ τ δ) (cut : RequestId × Nat) : SameNextIds e (stopOne e cut) :=
    ⟨rfl, (Scheduler.completeByStopSequence_moves e.scheduler cut.1 cut.2).nextSeqId_eq⟩
  exact SameNextIds.foldl hstop _ e

theorem pushToken_nextIds [IncrementalDecoder δ] (acc : InferenceEngine σ τ δ × List StepChunk)
    (entry : RequestId × TokenId) : SameNextIds acc.1 (pushToken acc entry).1 := by
  rw [pushToken]
  dsimp only
  split
  next => exact ⟨rfl, rfl⟩
  next =>
    split
    next => exact ⟨rfl, rfl⟩
    next => exact ⟨rfl, rfl⟩
    next => exact ⟨rfl, (Scheduler.failByRequestId_moves _ _ _).nextSeqId_eq⟩

variable [GPUExecutorTrait σ] [IncrementalDecoder δ] [TokenizerTrait τ δ]

theorem collectCompletedRequests_nextIds (e : InferenceEngine σ τ δ) :
    SameNextIds e e.collectCompletedRequests.2 := by
  rw [collectCompletedRequests]
  dsimp only
  split
  next => exact ⟨rfl, rfl⟩
  next =>
    have hcollect (acc : InferenceEngine σ τ δ × List CompletedRequest × List StepChunk)
        (req : Request) : SameNextIds acc.1 (collectOne acc req).1 := ⟨rfl, rfl⟩
    have htaken : SameNextIds e { e with
        scheduler := e.scheduler.takeCompletedWithSeqIds.2
        executionPipeline := e.executionPipeline.sequencesFinished
          (e.scheduler.takeCompletedWithSeqIds.1.map (·.1)) } := ⟨rfl, rfl⟩
    exact htaken.trans (SameNextIds.foldl hcollect _ (_, [], []))

theorem finishStep_nextIds (e : InferenceEngine σ τ δ) (generated : List (RequestId × TokenId)) :
    SameNextIds e (e.finishStep generated).2 := by
  have hpush : SameNextIds (e.applyStopSequences generated)
      (generated.foldl pushToken (e.applyStopSequences generated, [])).1 :=
    SameNextIds.foldl pushToken_nextIds _ (_, [])
  exact (e.applyStopSequences_nextIds generated).trans
    (hpush.trans (collectCompletedRequests_nextIds _))

theorem stepEvents_nextIds (e : InferenceEngine σ τ δ) : SameNextIds e e.stepEvents.2 := by
  have hupdated (pipeline : BatchExecutionPipeline σ) (output : ExecutionOutput) :
      SameNextIds e (e.updated pipeline output) :=
    e.scheduled_nextIds.trans ⟨rfl, (Scheduler.updateSequences_moves _ _ _).nextSeqId_eq⟩
  have hfailed (pipeline : BatchExecutionPipeline σ) (reason : String) :
      SameNextIds e (e.batchFailed pipeline reason).collectCompletedRequests.2 := by
    have hfail : SameNextIds e.scheduled (e.batchFailed pipeline reason) :=
      ⟨rfl, (Scheduler.failSequences_moves _ _ _).nextSeqId_eq⟩
    exact (e.scheduled_nextIds.trans hfail).trans (collectCompletedRequests_nextIds _)
  rw [stepEvents]
  dsimp only
  split
  next => exact e.scheduled_nextIds.trans (finishStep_nextIds e.scheduled [])
  next =>
    split
    next => exact (hupdated _ _).trans (finishStep_nextIds _ _)
    next => split <;> exact hfailed _ _

theorem runLoop_nextIds {fuel idleSteps : Nat} {e e' : InferenceEngine σ τ δ}
    {allCompleted all : List CompletedRequest}
    (h : runLoop fuel e allCompleted idleSteps = some (all, e')) : SameNextIds e e' := by
  induction fuel generalizing e allCompleted idleSteps with
  | zero => simp [runLoop] at h
  | succ fuel ih =>
    rw [runLoop] at h
    split at h
    next =>
      cases h
      exact ⟨rfl, rfl⟩
    next =>
      have hstep := e.stepEvents_nextIds
      have hturn (completed : List CompletedRequest)
          (h : (if !completed.isEmpty || 0 < e.stepEvents.2.scheduler.numActiveSequences then
              runLoop fuel e.stepEvents.2 (allCompleted ++ completed) 0
            else if stallLimit ≤ idleSteps + 1 then
              some (allCompleted ++ completed, (e.stepEvents.2.failPendingRequests stallReason).2)
            else runLoop fuel e.stepEvents.2 (allCompleted ++ completed) (idleSteps + 1)) =
              some (all, e')) : SameNextIds e e' := by
        split at h
        next => exact hstep.trans (ih h)
        next =>
          split at h
          next =>
            cases h
            exact hstep.trans ⟨rfl, rfl⟩
          next => exact hstep.trans (ih h)
      dsimp only at h
      cases hresult : e.stepEvents.1 with
      | ok events =>
        rw [hresult] at h
        exact hturn events.completed h
      | error err =>
        rw [hresult] at h
        exact hturn [] h

theorem run_nextIds {fuel : Nat} {e e' : InferenceEngine σ τ δ} {all : List CompletedRequest}
    (h : run fuel e = some (all, e')) : SameNextIds e e' := by
  rw [run] at h
  dsimp only at h
  split at h
  next => cases h
  next heq =>
    cases h
    exact ((collectCompletedRequests_nextIds e).trans (runLoop_nextIds heq)).trans
      (collectCompletedRequests_nextIds _)

/-- An accepted submission takes one id of each kind, and no other call takes any. -/
theorem respond_nextIds (e : InferenceEngine σ τ δ) (call : EngineCall) :
    (respond e call).2.nextRequestId =
        e.nextRequestId + (respond e call).1.accepts.toNat ∧
      (respond e call).2.scheduler.nextSeqId =
        e.scheduler.nextSeqId + (respond e call).1.accepts.toNat := by
  cases call with
  | submitRequest text params =>
    rcases e.submitRequest_cases text params with ⟨err, sch, hrun, hsch⟩ | ⟨tokens, -, -, -, hrun⟩
    · rw [respond, hrun]
      rcases hsch with rfl | rfl <;> exact ⟨rfl, rfl⟩
    · rw [respond, hrun]
      exact ⟨rfl, rfl⟩
  | cancelRequest requestId => exact ⟨rfl, (Scheduler.failByRequestId_moves _ _ _).nextSeqId_eq⟩
  | stepEvents => exact ⟨e.stepEvents_nextIds.nextRequestId, e.stepEvents_nextIds.nextSeqId⟩
  | run fuel =>
    rw [respond]
    cases hrun : e.run fuel with
    | none => exact ⟨rfl, rfl⟩
    | some r => exact ⟨(run_nextIds hrun).nextRequestId, (run_nextIds hrun).nextSeqId⟩
  | failPendingRequests reason => exact ⟨rfl, rfl⟩
  | collectCompletedRequests =>
    have hcollect := collectCompletedRequests_nextIds e
    exact ⟨hcollect.nextRequestId, hcollect.nextSeqId⟩
  | hasPendingWork => exact ⟨rfl, rfl⟩
  | getMetrics => exact ⟨rfl, rfl⟩

/-! ## Reachable engines -/

/-- An engine after any calls on a new one. -/
def Reachable (e : InferenceEngine σ τ δ) : Prop :=
  ∃ (config : EngineConfig) (tokenizer : τ) (gpuExecutor : σ) (calls : List EngineCall)
    (e₀ : InferenceEngine σ τ δ),
    withComponents config tokenizer (Scheduler.new config) gpuExecutor = .ok e₀ ∧
      (respondAll respond calls e₀).2 = e

end InferenceEngine

namespace Session

variable {σ τ δ : Type} [GPUExecutorTrait σ] [TokenizerTrait τ δ] [IncrementalDecoder δ]
  {x : Setting τ} {answer : List TokenId → TokenId → Prop}
  {R : σ → Fed → Prop} {s : Session σ τ δ}

/-- Every call takes a session to another one. -/
theorem Steady.respond (hA : Answering σ answer R) (h : s.Steady answer R x) (call : EngineCall) :
    ∃ s' : Session σ τ δ, s'.Steady answer R x ∧
      s'.engine = (InferenceEngine.respond s.engine call).2 := by
  cases call with
  | submitRequest text params =>
    exact ⟨_, h.apply hA (.submitRequest text params), s.engine_submit text params⟩
  | cancelRequest requestId => exact ⟨_, h.apply hA (.cancelRequest requestId), rfl⟩
  | stepEvents =>
    obtain ⟨events, hstep, -⟩ := step_spec h.inv.sound
    exact ⟨_, h.step hA, (congrArg Prod.snd hstep).symm⟩
  | run fuel =>
    rw [InferenceEngine.respond]
    cases hrun : s.engine.run fuel with
    | none => exact ⟨s, h, rfl⟩
    | some r =>
      obtain ⟨s', hacts, -, hengine, -⟩ := run_acts hA h hrun
      exact ⟨_, (acts_steady hA h hacts).collect hA, hengine⟩
  | failPendingRequests reason => exact ⟨_, h.failPending hA reason, rfl⟩
  | collectCompletedRequests => exact ⟨_, h.collect hA, rfl⟩
  | hasPendingWork => exact ⟨s, h, rfl⟩
  | getMetrics => exact ⟨s, h, rfl⟩

end Session

namespace InferenceEngine

variable {σ τ δ : Type} [GPUExecutorTrait σ] [IncrementalDecoder δ] [TokenizerTrait τ δ]
  {e e' : InferenceEngine σ τ δ}

theorem Reachable.steady (h : e.Reachable) :
    ∃ (x : Setting τ) (s : Session σ τ δ),
      s.Steady (fun _ _ => True) (fun _ _ => True) x ∧ s.engine = e := by
  obtain ⟨config, tokenizer, gpuExecutor, calls, e₀, hnew, rfl⟩ := h
  obtain ⟨hvalid, rfl⟩ := Session.withComponents_eq_ok.1 hnew
  have hreach : (Session.new config tokenizer gpuExecutor : Session σ τ δ).Reachable config
      tokenizer gpuExecutor := ⟨hvalid, [], rfl⟩
  have hkeep (e : InferenceEngine σ τ δ) (call : EngineCall)
      (he : ∃ s : Session σ τ δ, s.Steady (fun _ _ => True) (fun _ _ => True)
        (Session.settingOf config tokenizer) ∧ s.engine = e) :
      ∃ s : Session σ τ δ, s.Steady (fun _ _ => True) (fun _ _ => True)
        (Session.settingOf config tokenizer) ∧ s.engine = (respond e call).2 := by
    obtain ⟨s, hs, rfl⟩ := he
    exact hs.respond (Answering.any σ) call
  exact ⟨_, respondAll_invariant hkeep ⟨_, hreach.steady, rfl⟩ calls⟩

/-! ## What a submission leaves behind -/

/-- Nothing that can be asked of two engines, now or after any calls, differs. -/
structure SameObservations (e e' : InferenceEngine σ τ δ) : Prop where
  replies : ∀ calls, (respondAll respond calls e).1 = (respondAll respond calls e').1
  engines : ∀ calls, (respondAll respond calls e).2.Alike (respondAll respond calls e').2
  schedules : ∀ calls, (respondAll respond calls e).2.scheduler.schedule =
    (respondAll respond calls e').2.scheduler.schedule

theorem SameObservations.of_alike (h : e.Alike e') : e.SameObservations e' where
  replies calls := (respondAll_alike h calls).1
  engines calls := (respondAll_alike h calls).2
  schedules calls := by
    obtain ⟨b, hb⟩ := (respondAll_alike h calls).2
    rw [hb]
    exact Scheduler.schedule_withPressure _ b

/-- The request waits last in the queue and has a decoder; the next ids are one further. -/
structure Gains (e e' : InferenceEngine σ τ δ) (requestId : RequestId)
    (inputTokens : List TokenId) (params : GenerationParams) : Prop where
  fits : inputTokens.length + params.maxTokens.toNat ≤ e.config.maxModelLen.toNat
  requestId_eq : requestId = e.nextRequestId
  engine : e' = { e with
    scheduler := { e.scheduler with
      underMemoryPressure := e'.scheduler.underMemoryPressure
      nextSeqId := e.scheduler.nextSeqId + 1
      pendingQueue := e.scheduler.pendingQueue ++
        [⟨e.scheduler.nextSeqId, Request.new requestId inputTokens params⟩] }
    nextRequestId := e.nextRequestId + 1
    totalRequests := e.totalRequests + 1
    decoders := e.decoders.insert requestId (TokenizerTrait.createDecoder e.tokenizer) }

/-- The next ids follow those of all submissions accepted before, and a reachable engine
holds nothing under them. -/
structure Fresh (e : InferenceEngine σ τ δ) (requestId : RequestId) (seqId : SeqId) : Prop where
  issued : ∀ e₀ calls, (respondAll respond calls e₀).2 = e →
    requestId = e₀.nextRequestId +
        (respondAll respond calls e₀).1.countP EngineReply.accepts ∧
      seqId = e₀.scheduler.nextSeqId +
        (respondAll respond calls e₀).1.countP EngineReply.accepts
  request : e.Reachable → e.scheduler.getRequestById requestId = none
  sequence : e.Reachable → seqId ∉ e.scheduler.ids
  decoder : e.Reachable → e.decoders[requestId]? = none

theorem fresh_next (e : InferenceEngine σ τ δ) : e.Fresh e.nextRequestId e.scheduler.nextSeqId where
  issued e₀ calls h := by
    subst h
    exact ⟨respondAll_count (fun e => e.nextRequestId)
        (fun e call => (respond_nextIds e call).1) calls e₀,
      respondAll_count (fun e => e.scheduler.nextSeqId)
        (fun e call => (respond_nextIds e call).2) calls e₀⟩
  request h := by
    obtain ⟨x, s, hs, rfl⟩ := h.steady
    rw [hs.inv.numbering]
    exact Scheduler.getRequestById_eq_none hs.inv.sound fun hmem =>
      Nat.lt_irrefl _ (hs.inv.sound.wf.ids_lt _ hmem)
  sequence h := by
    obtain ⟨x, s, hs, rfl⟩ := h.steady
    exact fun hmem => Nat.lt_irrefl _ (hs.inv.sound.wf.ids_lt _ hmem)
  decoder h := by
    obtain ⟨x, s, hs, rfl⟩ := h.steady
    refine (hs.inv.strangers _ fun hmem => ?_).1
    obtain ⟨r, hr, hid⟩ := List.mem_map.1 hmem
    have hlt := (hs.inv.admits r hr).2
    rw [hid, hs.inv.numbering] at hlt
    exact Nat.lt_irrefl _ hlt

/-- A refused submission cannot be told from none; an accepted one adds one request and
its decoder, under new ids. -/
theorem submitRequest_traceless (e : InferenceEngine σ τ δ) (text : String)
    (params : GenerationParams) :
    (∀ err, (e.submitRequest text params).1 = .error err →
      (e.submitRequest text params).2.SameObservations e) ∧
    ∀ requestId promptTokens,
      (e.submitRequest text params).1 = .ok (requestId, promptTokens) →
        ∃ inputTokens, TokenizerTrait.tryEncode e.tokenizer text = .ok inputTokens ∧
          promptTokens = inputTokens.length ∧
          e.Gains (e.submitRequest text params).2 requestId inputTokens params ∧
          e.Fresh requestId e.scheduler.nextSeqId := by
  rcases e.submitRequest_cases text params with
    ⟨err, sch, hrun, hsch⟩ | ⟨inputTokens, hencode, -, hfits, hrun⟩
  · rw [hrun]
    refine ⟨fun _ _ => SameObservations.of_alike ?_, by rintro _ _ ⟨⟩⟩
    rcases hsch with rfl | rfl
    · exact Alike.refl e
    · exact ⟨e.scheduler.updateMemoryPressure.underMemoryPressure, rfl⟩
  · rw [hrun]
    refine ⟨by rintro _ ⟨⟩, ?_⟩
    rintro _ _ ⟨⟩
    exact ⟨inputTokens, hencode, rfl, ⟨hfits, rfl, rfl⟩, e.fresh_next⟩

/-- Behind one request, an empty text leaves no trace and "a" is request 2. -/
theorem submitRequest_traceless_small :
    (Session.smallSession.engine.submitRequest "" {}).2.SameObservations
        Session.smallSession.engine ∧
      ∃ inputTokens, Session.smallSession.engine.Gains
        (Session.smallSession.engine.submitRequest "a" { maxTokens := 2 }).2 2 inputTokens
          { maxTokens := 2 } ∧
        Session.smallSession.engine.Fresh 2 Session.smallSession.engine.scheduler.nextSeqId := by
  have hempty : (Session.smallSession.engine.submitRequest "" {}).1 = .error .emptyInput := by
    decide +kernel
  have hletter : (Session.smallSession.engine.submitRequest "a" { maxTokens := 2 }).1 =
      .ok (2, 3) := by decide +kernel
  obtain ⟨inputTokens, -, -, hgains, hfresh⟩ :=
    (submitRequest_traceless Session.smallSession.engine "a" { maxTokens := 2 }).2 2 3 hletter
  exact ⟨(submitRequest_traceless Session.smallSession.engine "" {}).1 _ hempty, inputTokens,
    hgains, hfresh⟩

end InferenceEngine

end PagedServing
