import PagedServing.Engine.CallLog

/-! # The retry discipline

What `execute` asks of its backend, whatever the backend replies: the same batch every
time, once more only after a timeout, and never beyond the limit.
-/

namespace PagedServing

/-- A backend that replies by a script, whatever it is asked. -/
structure ScriptBackend where
  script : Nat → Except EngineError ExecutionOutput
  answered : Nat := 0
  retrySafe : Bool := true

instance : GPUExecutorTrait ScriptBackend where
  execute backend _ :=
    (backend.script backend.answered, { backend with answered := backend.answered + 1 })
  capabilities backend := ⟨false, backend.retrySafe⟩

namespace BatchExecutionPipeline

variable {σ : Type} [GPUExecutorTrait σ] {p : BatchExecutionPipeline σ} {b : ExecutionBatch}

/-- The backend after `k` executions of one batch. -/
def backendAfter (b : ExecutionBatch) (x : σ) : Nat → σ
  | 0 => x
  | k + 1 => backendAfter b (GPUExecutorTrait.execute x b).2 k

/-- Its reply to one more execution. -/
def replyAfter (b : ExecutionBatch) (x : σ) (k : Nat) : Except EngineError ExecutionOutput :=
  (GPUExecutorTrait.execute (backendAfter b x k) b).1

/-- How many calls one batch is worth. -/
def callLimit (p : BatchExecutionPipeline σ) : Nat :=
  if p.capabilities.retrySafe then p.maxRetryAttempts.toNat + 1 else 1

/-- The course of `n + 1` calls, of at most `limit`, with one batch. -/
structure Calls (p : BatchExecutionPipeline σ) (b : ExecutionBatch) (limit n : Nat)
    (result : Except EngineError ExecutionOutput) (p' : BatchExecutionPipeline σ) : Prop where
  within : n + 1 ≤ limit
  calls : p'.calls = p.calls ++
    (List.range (n + 1)).map fun k => .execute b (replyAfter b p.gpuExecutor k)
  backend : p'.gpuExecutor = backendAfter b p.gpuExecutor (n + 1)
  again : ∀ k < n, replyAfter b p.gpuExecutor k = .error .gpuTimeout
  givesUp : replyAfter b p.gpuExecutor n = .error .gpuTimeout → n + 1 = limit
  result : result = (replyAfter b p.gpuExecutor n).bind (accept b)

/-- One call, after which the loop is left. -/
theorem calls_once {limit : Nat} (hlimit : 1 ≤ limit)
    (hlast : (p.attempt b).1 = .error .gpuTimeout → limit = 1) :
    p.Calls b limit 0 ((p.attempt b).1.bind (accept b)) (p.attempt b).2 :=
  ⟨hlimit, rfl, rfl, by simp, fun h => (hlast h).symm, rfl⟩

/-- A timed-out call before the others. -/
theorem Calls.cons {limit n : Nat} {result : Except EngineError ExecutionOutput}
    {p' : BatchExecutionPipeline σ} (htimeout : (p.attempt b).1 = .error .gpuTimeout)
    (h : (p.attempt b).2.Calls b limit n result p') : p.Calls b (limit + 1) (n + 1) result p' := by
  have hreply (k : Nat) :
      replyAfter b (p.attempt b).2.gpuExecutor k = replyAfter b p.gpuExecutor (k + 1) := rfl
  refine ⟨Nat.succ_le_succ h.within, ?_, h.backend, fun k hk => ?_, fun hlast => ?_, h.result⟩
  · have hfirst : (p.attempt b).2.calls = p.calls ++ [.execute b (replyAfter b p.gpuExecutor 0)] := rfl
    rw [h.calls, hfirst, List.append_assoc, List.range_succ_eq_map (n := n + 1), List.map_cons,
      List.map_map]
    rfl
  · cases k with
    | zero => exact htimeout
    | succ k => exact h.again k (Nat.lt_of_succ_lt_succ hk)
  · rw [h.givesUp hlast]

theorem executeLoop_of_timeout {retriesLeft : Nat}
    (h : (p.attempt b).1 = .error .gpuTimeout) :
    executeLoop b true (retriesLeft + 1) p = executeLoop b true retriesLeft (p.attempt b).2 := by
  rcases hrun : p.attempt b with ⟨reply, q⟩
  rw [hrun] at h
  dsimp only at h
  rw [executeLoop, hrun, h]
  rfl

theorem executeLoop_of_last {retrySafe : Bool} {retriesLeft : Nat}
    (h : (p.attempt b).1 = .error .gpuTimeout → retrySafe = false ∨ retriesLeft = 0) :
    executeLoop b retrySafe retriesLeft p =
      ((p.attempt b).1.bind (accept b), (p.attempt b).2) := by
  rcases hrun : p.attempt b with ⟨reply, q⟩
  rw [hrun] at h
  cases retriesLeft with
  | zero =>
      rw [executeLoop, hrun]
      cases reply <;> rfl
  | succ retriesLeft =>
      rw [executeLoop, hrun]
      cases reply with
      | ok output => rfl
      | error e =>
          cases e with
          | gpuTimeout =>
              obtain rfl : retrySafe = false := by simpa using h rfl
              rfl
          | _ => rfl

theorem executeLoop_calls (b : ExecutionBatch) (retrySafe : Bool) (retriesLeft : Nat)
    (p : BatchExecutionPipeline σ) :
    ∃ n, p.Calls b (if retrySafe then retriesLeft + 1 else 1) n
      (executeLoop b retrySafe retriesLeft p).1 (executeLoop b retrySafe retriesLeft p).2 := by
  induction retriesLeft generalizing p with
  | zero =>
      rw [executeLoop_of_last fun _ => .inr rfl, Nat.zero_add, ite_self]
      exact ⟨0, calls_once le_rfl fun _ => rfl⟩
  | succ retriesLeft ih =>
      by_cases hagain : (p.attempt b).1 = .error .gpuTimeout ∧ retrySafe = true
      · obtain ⟨htimeout, rfl⟩ := hagain
        obtain ⟨n, hn⟩ := ih (p.attempt b).2
        rw [if_pos rfl] at hn ⊢
        rw [executeLoop_of_timeout htimeout]
        exact ⟨n + 1, hn.cons htimeout⟩
      · have hlast : (p.attempt b).1 = .error .gpuTimeout → retrySafe = false := fun h => by
          simpa [h] using hagain
        rw [executeLoop_of_last fun h => .inl (hlast h)]
        refine ⟨0, calls_once ?_ fun h => ?_⟩
        · split <;> omega
        · rw [hlast h]
          rfl

/-- `execute` on one batch: how often the backend is called, and what is returned. -/
structure Retries (p : BatchExecutionPipeline σ) (b : ExecutionBatch)
    (result : Except EngineError ExecutionOutput) (p' : BatchExecutionPipeline σ) : Prop where
  course : ∃ n, p.Calls b p.callLimit n result p' ∧
    (∀ output, result = .ok output → replyAfter b p.gpuExecutor n = .ok output ∧
      validateExecutionOutput b output = .ok ()) ∧
    ∀ e, result = .error e → replyAfter b p.gpuExecutor n = .error e ∨
      ∃ output, replyAfter b p.gpuExecutor n = .ok output ∧
        validateExecutionOutput b output = .error e

theorem accept_eq_error {output : ExecutionOutput} {e : EngineError}
    (h : accept b output = .error e) : validateExecutionOutput b output = .error e := by
  rw [accept] at h
  cases hvalid : validateExecutionOutput b output with
  | ok u => simp [hvalid] at h
  | error e' => simpa [hvalid] using h

/-- The calls of an execution, for every backend and every schedule that is not empty. -/
theorem retries_of_execute (p : BatchExecutionPipeline σ) {o : SchedulerOutput}
    (hne : o.isEmpty = false) :
    (∀ e, buildExecutionBatch o = .error e → p.execute o = (.error e, p)) ∧
      ∀ b, buildExecutionBatch o = .ok b →
        (∀ e, validateBatchShape b = .error e → p.execute o = (.error e, p)) ∧
          (validateBatchShape b = .ok () → p.Retries b (p.execute o).1 (p.execute o).2) := by
  refine ⟨fun e hbuild => by simp [execute, hne, hbuild], fun b hbuild =>
    ⟨fun e hshape => by simp [execute, hne, hbuild, hshape], fun hshape => ?_⟩⟩
  obtain ⟨n, hcalls⟩ :=
    executeLoop_calls b p.capabilities.retrySafe p.maxRetryAttempts.toNat p
  have hrun : p.execute o =
      executeLoop b p.capabilities.retrySafe p.maxRetryAttempts.toNat p := by
    simp [execute, hne, hbuild, hshape]
  rw [hrun]
  refine ⟨n, hcalls, fun output hok => ?_, fun e herror => ?_⟩
  · rw [hcalls.result] at hok
    cases hreply : replyAfter b p.gpuExecutor n with
    | error e => simp [hreply, Except.bind] at hok
    | ok reply =>
        rw [hreply] at hok
        obtain ⟨rfl, hvalid⟩ := accept_eq_ok.1 hok
        exact ⟨rfl, hvalid⟩
  · rw [hcalls.result] at herror
    cases hreply : replyAfter b p.gpuExecutor n with
    | error e' =>
        rw [hreply] at herror
        exact .inl herror
    | ok reply =>
        rw [hreply] at herror
        exact .inr ⟨reply, rfl, accept_eq_error herror⟩

/-- Two timeouts and a malformed answer, with three retries allowed. -/
def timeoutScript : Nat → Except EngineError ExecutionOutput
  | 0 => .error .gpuTimeout
  | 1 => .error .gpuTimeout
  | _ => .ok { nextTokens := [7], seqIds := [2] }

def scriptedPipeline : BatchExecutionPipeline ScriptBackend := ⟨⟨timeoutScript, 0, true⟩, 3, []⟩

def scriptedSequence : Sequence :=
  { seqId := 1
    request := Request.new 1 [5] {}
    logicalBlocks := [⟨0⟩]
    numGeneratedTokens := 0 }

def scriptedOutput : SchedulerOutput := { prefillSequences := [scriptedSequence], totalTokens := 1 }

theorem retries_of_execute_scripted :
    scriptedPipeline.Retries (({} : ExecutionBatch).addPrefill scriptedSequence)
      (scriptedPipeline.execute scriptedOutput).1 (scriptedPipeline.execute scriptedOutput).2 :=
  ((retries_of_execute scriptedPipeline (o := scriptedOutput) rfl).2 _ rfl).2 rfl

end BatchExecutionPipeline

end PagedServing
