import PagedServing.Engine.Batches

/-! # The log of backend calls

What a log says about one sequence: the entries it was given and the tokens that came
back. A call that repeats the batch of a timed-out call is a replay and counts once.
-/

namespace PagedServing

/-! ## Reading the log -/

/-- The batch that a call leaves timed out. -/
def BackendCall.timedOut : BackendCall → Option ExecutionBatch
  | .execute b (.error .gpuTimeout) => some b
  | _ => none

/-- The batches of a log that follows a call with the given timed-out batch. -/
def batchesAfter : Option ExecutionBatch → List BackendCall → List ExecutionBatch
  | _, [] => []
  | _, .sequencesFinished _ :: rest => batchesAfter none rest
  | timedOut, .execute b reply :: rest =>
      let later := batchesAfter (BackendCall.execute b reply).timedOut rest
      if timedOut = some b then later else b :: later

def batchesOf (calls : List BackendCall) : List ExecutionBatch := batchesAfter none calls

/-- The successive entries of one sequence. -/
def entriesOf (calls : List BackendCall) (id : SeqId) : List BatchEntry :=
  (batchesOf calls).flatMap fun b => b.entries.filter fun entry => entry.seqId = id

theorem entriesOf_congr {calls calls' : List BackendCall} (h : batchesOf calls = batchesOf calls')
    (id : SeqId) : entriesOf calls id = entriesOf calls' id := by
  rw [entriesOf, h, entriesOf]

/-- The rows of an answer that passes the shape check. -/
def BackendCall.rows : BackendCall → List (SeqId × TokenId)
  | .execute b (.ok o) =>
      match validateExecutionOutput b o with
      | .ok _ => o.seqIds.zip o.nextTokens
      | .error _ => []
  | _ => []

/-- The tokens generated for one sequence. -/
def tokensOf (calls : List BackendCall) (id : SeqId) : List TokenId :=
  (calls.flatMap BackendCall.rows).filterMap fun row => if row.1 = id then some row.2 else none

/-- The last call is not a timed-out one. -/
def Settled (calls : List BackendCall) : Prop :=
  ∀ call ∈ calls.getLast?, call.timedOut = none

theorem batchesAfter_append (calls more : List BackendCall) (timedOut : Option ExecutionBatch) :
    batchesAfter timedOut (calls ++ more) =
      batchesAfter timedOut calls ++
        batchesAfter (calls.getLast?.elim timedOut BackendCall.timedOut) more := by
  induction calls generalizing timedOut with
  | nil => simp [batchesAfter]
  | cons call rest ih =>
    have hlast : ((call :: rest).getLast?.elim timedOut BackendCall.timedOut) =
        rest.getLast?.elim call.timedOut BackendCall.timedOut := by
      cases rest with
      | nil => simp
      | cons c rest => simp [List.getLast?_cons]
    rw [hlast]
    cases call with
    | sequencesFinished ids => exact ih none
    | execute b reply =>
        simp only [List.cons_append, batchesAfter, ih]
        split <;> simp

theorem batchesOf_append {calls : List BackendCall} (h : Settled calls) (more : List BackendCall) :
    batchesOf (calls ++ more) = batchesOf calls ++ batchesOf more := by
  rw [batchesOf, batchesAfter_append, batchesOf, batchesOf]
  cases hlast : calls.getLast? with
  | none => rfl
  | some call => rw [Option.elim_some, h call hlast]

/-- Replays of one batch after its first call. -/
theorem batchesAfter_replays (b : ExecutionBatch) (n : Nat)
    (reply : Except EngineError ExecutionOutput) :
    batchesAfter (some b) (List.replicate n (.execute b (.error .gpuTimeout)) ++
      [.execute b reply]) = [] := by
  induction n with
  | zero => simp [batchesAfter]
  | succ n ih => simpa [List.replicate_succ, batchesAfter, BackendCall.timedOut] using ih

/-- All attempts at one batch count as that batch. -/
theorem batchesOf_attempts (b : ExecutionBatch) (n : Nat)
    (reply : Except EngineError ExecutionOutput) :
    batchesOf (List.replicate n (.execute b (.error .gpuTimeout)) ++ [.execute b reply]) = [b] := by
  cases n with
  | zero => simp [batchesOf, batchesAfter]
  | succ n =>
      simpa [batchesOf, List.replicate_succ, batchesAfter, BackendCall.timedOut] using
        batchesAfter_replays b n reply

theorem tokensOf_append (calls more : List BackendCall) (id : SeqId) :
    tokensOf (calls ++ more) id = tokensOf calls id ++ tokensOf more id := by
  simp [tokensOf]

/-! ## What the pipeline appends -/

/-- What a sequence of accepted batches may rely on. `R` relates a state of the backend to
what it has been fed; `answer` says which token may follow what has been fed. -/
structure Answering (σ : Type) [GPUExecutorTrait σ] (answer : List TokenId → TokenId → Prop)
    (R : σ → Fed → Prop) : Prop where
  accepted : ∀ {backend backend' : σ} {fed : Fed} {batch : ExecutionBatch}
    {output : ExecutionOutput}, R backend fed →
    GPUExecutorTrait.execute backend batch = (.ok output, backend') →
    validateExecutionOutput batch output = .ok () →
    R backend' (fed.feed batch) ∧
      ∀ row ∈ output.seqIds.zip output.nextTokens, answer (fed.feed batch row.1) row.2
  /-- What a failed call leaves behind is overwritten when the batch is replayed. -/
  failed : ∀ {backend backend' : σ} {fed : Fed} {batch : ExecutionBatch}
    {reply : Except EngineError ExecutionOutput}, R backend fed →
    GPUExecutorTrait.execute backend batch = (reply, backend') →
    (∀ output, reply = .ok output → validateExecutionOutput batch output ≠ .ok ()) →
    ∃ fed', R backend' fed' ∧ fed'.feed batch = fed.feed batch
  /-- A backend may forget the sequences reported as finished. -/
  finished : ∀ {backend : σ} {fed : Fed} (ids : List SeqId), R backend fed →
    ∃ fed', R (GPUExecutorTrait.sequencesFinished backend ids) fed' ∧
      ∀ id ∉ ids, fed' id = fed id

/-- Any backend at all, when nothing is asked of its tokens. -/
theorem Answering.any (σ : Type) [GPUExecutorTrait σ] :
    Answering σ (fun _ _ => True) (fun _ _ => True) where
  accepted _ _ _ := ⟨trivial, fun _ _ => trivial⟩
  failed {_ _ fed _ _} _ _ _ := ⟨fed, trivial, rfl⟩
  finished {_ fed} _ _ := ⟨fed, trivial, fun _ _ => rfl⟩

/-- What an execution of `b` leaves fed, by its result. -/
def FedAfter (answer : List TokenId → TokenId → Prop) (b : ExecutionBatch) (fed fed' : Fed) :
    Except EngineError ExecutionOutput → Prop
  | .ok output => fed' = fed.feed b ∧
      ∀ row ∈ output.seqIds.zip output.nextTokens, answer (fed.feed b row.1) row.2
  | .error _ => fed'.feed b = fed.feed b

/-- It depends on what was fed before only through what feeding `b` makes of it. -/
theorem FedAfter.of_feed_eq {answer : List TokenId → TokenId → Prop} {b : ExecutionBatch}
    {fed₀ fed fed' : Fed} {result : Except EngineError ExecutionOutput}
    (h : FedAfter answer b fed fed' result) (hfed : fed.feed b = fed₀.feed b) :
    FedAfter answer b fed₀ fed' result := by
  cases result with
  | ok output => exact ⟨hfed ▸ h.1, hfed ▸ h.2⟩
  | error e => exact h.trans hfed

/-- The attempts at one batch: some time out, the last one decides. -/
structure Attempts {σ : Type} (p : BatchExecutionPipeline σ) (b : ExecutionBatch)
    (result : Except EngineError ExecutionOutput) (p' : BatchExecutionPipeline σ) : Prop where
  calls : ∃ (n : Nat) (reply : Except EngineError ExecutionOutput),
    p'.calls = p.calls ++ (List.replicate n (.execute b (.error .gpuTimeout)) ++
      [.execute b reply]) ∧
    ∀ output, result = .ok output ↔
      reply = .ok output ∧ validateExecutionOutput b output = .ok ()

namespace Attempts

variable {σ : Type} {p p' : BatchExecutionPipeline σ} {b : ExecutionBatch}
  {result : Except EngineError ExecutionOutput} {output : ExecutionOutput}

theorem accepted (h : Attempts p b (.ok output) p') :
    validateExecutionOutput b output = .ok () := by
  obtain ⟨_, _, -, hresult⟩ := h.calls
  exact ((hresult output).1 rfl).2

theorem batchesOf (h : Attempts p b result p') (hs : Settled p.calls) :
    batchesOf p'.calls = PagedServing.batchesOf p.calls ++ [b] := by
  obtain ⟨n, reply, hcalls, -⟩ := h.calls
  rw [hcalls, batchesOf_append hs, batchesOf_attempts]

theorem entriesOf (h : Attempts p b result p') (hs : Settled p.calls) (id : SeqId) :
    entriesOf p'.calls id =
      PagedServing.entriesOf p.calls id ++ b.entries.filter fun entry => entry.seqId = id := by
  simp [PagedServing.entriesOf, h.batchesOf hs]

theorem settled (h : Attempts p b (.ok output) p') : Settled p'.calls := by
  obtain ⟨n, reply, hcalls, hresult⟩ := h.calls
  obtain ⟨rfl, -⟩ := (hresult output).1 rfl
  intro call hcall
  rw [hcalls, ← List.append_assoc, List.getLast?_concat, Option.mem_some_iff] at hcall
  rw [← hcall]
  rfl

private theorem tokensOf_timeouts (n : Nat) (id : SeqId) :
    tokensOf (List.replicate n (.execute b (.error .gpuTimeout))) id = [] := by
  cases n <;> simp [List.replicate_succ, tokensOf, BackendCall.rows]

theorem tokensOf_ok (h : Attempts p b (.ok output) p') (id : SeqId) :
    tokensOf p'.calls id = tokensOf p.calls id ++
      (output.seqIds.zip output.nextTokens).filterMap fun row =>
        if row.1 = id then some row.2 else none := by
  obtain ⟨n, reply, hcalls, hresult⟩ := h.calls
  obtain ⟨rfl, hvalid⟩ := (hresult output).1 rfl
  rw [hcalls, tokensOf_append, tokensOf_append, tokensOf_timeouts, List.nil_append]
  simp [tokensOf, BackendCall.rows, hvalid]

theorem tokensOf_error {e : EngineError} (h : Attempts p b (.error e) p') (id : SeqId) :
    tokensOf p'.calls id = tokensOf p.calls id := by
  obtain ⟨n, reply, hcalls, hresult⟩ := h.calls
  rw [hcalls, tokensOf_append, tokensOf_append, tokensOf_timeouts, List.nil_append]
  cases reply with
  | error e => simp [tokensOf, BackendCall.rows]
  | ok output =>
      cases hvalid : validateExecutionOutput b output with
      | ok _ => exact absurd ((hresult output).2 ⟨rfl, hvalid⟩) (by simp)
      | error _ => simp [tokensOf, BackendCall.rows, hvalid]

end Attempts

namespace BatchExecutionPipeline

variable {σ : Type} [GPUExecutorTrait σ] {p : BatchExecutionPipeline σ}

theorem accept_eq_ok {batch : ExecutionBatch} {output o : ExecutionOutput} :
    accept batch output = .ok o ↔ output = o ∧ validateExecutionOutput batch output = .ok () := by
  rw [accept]
  cases validateExecutionOutput batch output <;> simp

/-- The loop returns what the last attempt answers, once that has passed the check. -/
theorem executeLoop_attempts (batch : ExecutionBatch) (retrySafe : Bool) (n : Nat)
    (p : BatchExecutionPipeline σ) :
    Attempts p batch (executeLoop batch retrySafe n p).1 (executeLoop batch retrySafe n p).2 := by
  have hlast (q : BatchExecutionPipeline σ) (reply : Except EngineError ExecutionOutput)
      (result : Except EngineError ExecutionOutput) (q' : BatchExecutionPipeline σ)
      (hcalls : q'.calls = q.calls ++ [.execute batch reply])
      (hresult : ∀ output, result = .ok output ↔
        reply = .ok output ∧ validateExecutionOutput batch output = .ok ()) :
      Attempts q batch result q' := ⟨0, reply, by simpa using hcalls, hresult⟩
  have hok (output : ExecutionOutput) : ∀ o, accept batch output = .ok o ↔
      (.ok output : Except EngineError ExecutionOutput) = .ok o ∧
        validateExecutionOutput batch o = .ok () := by
    intro o
    rw [accept_eq_ok, Except.ok.injEq]
    constructor <;> · rintro ⟨rfl, h⟩; exact ⟨rfl, h⟩
  have hbad (e : EngineError) : ∀ o, (.error e : Except EngineError ExecutionOutput) = .ok o ↔
      (.error e : Except EngineError ExecutionOutput) = .ok o ∧
        validateExecutionOutput batch o = .ok () := by simp
  induction n generalizing p with
  | zero =>
    rw [executeLoop]
    split
    next output q hq =>
      rw [attempt, Prod.mk.injEq] at hq
      exact hlast p _ _ _ (by rw [← hq.2, hq.1]) (hok output)
    next e q hq =>
      rw [attempt, Prod.mk.injEq] at hq
      exact hlast p _ _ _ (by rw [← hq.2, hq.1]) (hbad e)
  | succ n ih =>
    rw [executeLoop]
    split
    next output q hq =>
      rw [attempt, Prod.mk.injEq] at hq
      exact hlast p _ _ _ (by rw [← hq.2, hq.1]) (hok output)
    next q hq =>
      rw [attempt, Prod.mk.injEq] at hq
      have hcalls : q.calls = p.calls ++ [.execute batch (.error .gpuTimeout)] := by
        rw [← hq.2, hq.1]
      split
      · obtain ⟨k, reply, hmore, hresult⟩ := (ih q).calls
        refine ⟨k + 1, reply, ?_, hresult⟩
        rw [hmore, hcalls, List.replicate_succ]
        simp
      · exact hlast p _ _ _ hcalls (hbad _)
    next e q _ hq =>
      rw [attempt, Prod.mk.injEq] at hq
      exact hlast p _ _ _ (by rw [← hq.2, hq.1]) (hbad e)

/-- What the backend has been fed when the loop is over. -/
theorem executeLoop_answers {answer : List TokenId → TokenId → Prop} {R : σ → Fed → Prop}
    (hA : Answering σ answer R) (batch : ExecutionBatch) (retrySafe : Bool) (n : Nat)
    (p : BatchExecutionPipeline σ) {fed : Fed} (hR : R p.gpuExecutor fed) :
    ∃ fed', R (executeLoop batch retrySafe n p).2.gpuExecutor fed' ∧
      FedAfter answer batch fed fed' (executeLoop batch retrySafe n p).1 := by
  have hreply {p q : BatchExecutionPipeline σ} {fed : Fed}
      {reply : Except EngineError ExecutionOutput} (hR : R p.gpuExecutor fed)
      (hq : p.attempt batch = (reply, q)) :
      ∃ fed', R q.gpuExecutor fed' ∧
        FedAfter answer batch fed fed' (reply.bind (accept batch)) := by
    rw [attempt, Prod.mk.injEq] at hq
    have hrun : GPUExecutorTrait.execute p.gpuExecutor batch = (reply, q.gpuExecutor) := by
      rw [← hq.1, ← hq.2]
    cases reply with
    | error e => exact hA.failed hR hrun (by simp)
    | ok output =>
        cases hvalid : validateExecutionOutput batch output with
        | ok u =>
            obtain ⟨hfed, hrows⟩ := hA.accepted hR hrun hvalid
            exact ⟨_, hfed, by simpa [Except.bind, accept, hvalid, FedAfter] using hrows⟩
        | error e =>
            obtain ⟨fed', hR', hfed⟩ := hA.failed hR hrun (by simp [hvalid])
            exact ⟨fed', hR', by simpa [Except.bind, accept, hvalid, FedAfter] using hfed⟩
  induction n generalizing p fed with
  | zero =>
    rw [executeLoop]
    split
    next output q hq => exact hreply hR hq
    next e q hq => exact hreply hR hq
  | succ n ih =>
    rw [executeLoop]
    split
    next output q hq => exact hreply hR hq
    next q hq =>
      split
      · -- the replay starts from what the timed-out call left behind
        obtain ⟨fed₁, hR₁, hfed₁⟩ := hreply hR hq
        obtain ⟨fed', hR', hfinal⟩ := ih q hR₁
        exact ⟨fed', hR', hfinal.of_feed_eq hfed₁⟩
      · exact hreply hR hq
    next e q _ hq => exact hreply hR hq

/-! ## A whole execution -/

/-- The schedule was turned into the batch `b`, which went to the backend. -/
structure Sent (p : BatchExecutionPipeline σ) (o : SchedulerOutput) (b : ExecutionBatch)
    (result : Except EngineError ExecutionOutput) (p' : BatchExecutionPipeline σ) : Prop where
  builds : o.Builds b
  shape : validateBatchShape b = .ok ()
  attempts : Attempts p b result p'
  answers : ∀ {answer : List TokenId → TokenId → Prop} {R : σ → Fed → Prop},
    Answering σ answer R → ∀ {fed : Fed}, R p.gpuExecutor fed →
      ∃ fed', R p'.gpuExecutor fed' ∧ FedAfter answer b fed fed' result

/-- A non-empty schedule fails before any call, or its batch goes through the loop. -/
theorem execute_eq {o : SchedulerOutput} (hne : o.isEmpty = false)
    (hlen : ∀ seq ∈ o.prefillSequences, seq.request.inputTokens.length < 2 ^ 32) :
    (∃ e, p.execute o = (.error e, p)) ∨
      ∃ b, o.Builds b ∧ validateBatchShape b = .ok () ∧
        p.execute o = executeLoop b p.capabilities.retrySafe p.maxRetryAttempts.toNat p := by
  cases hbuild : buildExecutionBatch o with
  | error e => exact .inl ⟨e, by simp [execute, hne, hbuild]⟩
  | ok b =>
      cases hshape : validateBatchShape b with
      | error e => exact .inl ⟨e, by simp [execute, hne, hbuild, hshape]⟩
      | ok u =>
          exact .inr ⟨b, buildExecutionBatch_builds hlen hbuild, hshape, by
            simp [execute, hne, hbuild, hshape]⟩

theorem sent_executeLoop {o : SchedulerOutput} {b : ExecutionBatch} (hb : o.Builds b)
    (hshape : validateBatchShape b = .ok ()) (retrySafe : Bool) (n : Nat) :
    p.Sent o b (executeLoop b retrySafe n p).1 (executeLoop b retrySafe n p).2 :=
  ⟨hb, hshape, executeLoop_attempts b retrySafe n p, fun hA _ hR =>
    executeLoop_answers hA b retrySafe n p hR⟩

theorem execute_cases {o : SchedulerOutput} (hne : o.isEmpty = false)
    (hlen : ∀ seq ∈ o.prefillSequences, seq.request.inputTokens.length < 2 ^ 32) :
    (∃ e, p.execute o = (.error e, p)) ∨
      ∃ b, p.Sent o b (p.execute o).1 (p.execute o).2 := by
  rcases execute_eq (p := p) hne hlen with hfail | ⟨b, hb, hshape, hrun⟩
  · exact .inl hfail
  · rw [hrun]
    exact .inr ⟨b, sent_executeLoop hb hshape _ _⟩

end BatchExecutionPipeline

/-! ## An accepted answer -/

/-- One token for each sequence of the batch, in any order. -/
structure Answered (b : ExecutionBatch) (output : ExecutionOutput) : Prop where
  tokens : output.nextTokens.length = output.seqIds.length
  nodup : output.seqIds.Nodup
  perm : output.seqIds.Perm b.seqIds

theorem answered_of_valid {b : ExecutionBatch} {output : ExecutionOutput}
    (hb : b.seqIds.Nodup) (h : validateExecutionOutput b output = .ok ()) : Answered b output := by
  simp only [validateExecutionOutput, malformedOutput] at h
  split_ifs at h with h1 h2 h3 h4
  simp only [not_not] at h1 h2 h3 h4
  have hnodup : output.seqIds.Nodup := by
    rw [← List.dedup_eq_self]
    exact (List.dedup_sublist _).eq_of_length h3
  refine ⟨h1, hnodup, ?_⟩
  rw [List.perm_ext_iff_of_nodup hnodup hb]
  intro a
  rw [← List.mem_toFinset, h4, List.mem_toFinset]

end PagedServing
