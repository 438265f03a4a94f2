import PagedServing.Scheduler.Turns

/-! # The other operations as moves

Terminations, stop sequences and the update after a batch, the latter for any
execution output whatsoever.
-/

namespace PagedServing

open Relation

theorem Sequence.stopAt_samePlace (seq : Sequence) (keepTokens : Nat) :
    seq.SamePlace (seq.stopAt keepTokens) := ⟨rfl, rfl, rfl, rfl⟩

theorem Sequence.appendToken_samePlace (seq : Sequence) (token : TokenId)
    (logprobs : Option (Option TokenLogprobs)) : seq.SamePlace (seq.appendToken token logprobs) :=
  ⟨rfl, rfl, rfl, rfl⟩

namespace Scheduler

variable {s s' : Scheduler} {id : SeqId} {seq : Sequence}

/-! ## Terminations -/

theorem completeSequence_moves (s : Scheduler) (id : SeqId) : Moves s (s.completeSequence id) := by
  rw [completeSequence]
  cases h : s.retire id .completed with
  | none => exact .refl
  | some s' => exact .single (.retire (by exact trivial) h)

/-- Failing an id retires it when it is active, or takes it out of the queue. -/
theorem failSequence_cases (s : Scheduler) (id : SeqId) (reason : String) :
    s.retire id (.failed reason) = some (s.failSequence id reason) ∨
      (s.active id = none ∧ ∃ p queue, p ∈ s.pendingQueue ∧ p.seqId = id ∧
        s.pendingQueue.Perm (p :: queue) ∧ s.failSequence id reason = { s with
          pendingQueue := queue
          completedRequests :=
            s.completedRequests ++ [(p.seqId, p.request.fail reason)] }) ∨
      (s.active id = none ∧ (∀ p ∈ s.pendingQueue, p.seqId ≠ id) ∧
        s.failSequence id reason = s) := by
  rw [failSequence]
  cases hr : s.retire id (.failed reason) with
  | some s' => exact .inl rfl
  | none =>
      have hnone := retire_eq_none hr
      refine .inr ?_
      cases hi : s.pendingQueue.findIdx? (·.seqId = id) with
      | none =>
          rw [List.findIdx?_eq_none_iff] at hi
          exact .inr ⟨hnone, by simpa using hi, rfl⟩
      | some index =>
          obtain ⟨hlt, hid, -⟩ := List.findIdx?_eq_some_iff_getElem.1 hi
          have hget := List.getElem?_eq_getElem hlt
          refine .inl ⟨hnone, s.pendingQueue[index], s.pendingQueue.eraseIdx index,
            List.getElem_mem hlt, by simpa using hid,
            (List.getElem_cons_eraseIdx_perm hlt).symm, ?_⟩
          simp only [decide_eq_true_eq] at hid
          simp [hget, hid]

theorem failSequence_moves (s : Scheduler) (id : SeqId) (reason : String) :
    Moves s (s.failSequence id reason) := by
  rcases failSequence_cases s id reason with h | ⟨-, p, queue, -, -, hperm, heq⟩ | ⟨-, -, heq⟩
  · exact .single (.retire (by exact trivial) h)
  · rw [heq]
    exact .single (.reject reason hperm)
  · rw [heq]

theorem failSequences_moves (s : Scheduler) (seqIds : List SeqId) (reason : String) :
    Moves s (s.failSequences seqIds reason) := by
  induction seqIds generalizing s with
  | nil => exact .refl
  | cons id rest ih => exact (failSequence_moves s id reason).trans (ih _)

theorem failByRequestId_moves (s : Scheduler) (requestId : RequestId) (reason : String) :
    Moves s (s.failByRequestId requestId reason).2 := by
  rw [failByRequestId]
  split
  · exact failSequence_moves s _ reason
  · exact .refl

theorem truncateActive_moves (s : Scheduler) (id : SeqId) (keepTokens : Nat) :
    Moves s (s.truncateActive id keepTokens) := by
  rw [truncateActive]
  split
  next seq h => exact .single (.editPrefill h (seq.stopAt_samePlace keepTokens))
  next =>
    split
    next seq h => exact .single (.editDecode h (seq.stopAt_samePlace keepTokens))
    next => exact .refl

theorem completeByStopSequence_moves (s : Scheduler) (requestId : RequestId) (keepTokens : Nat) :
    Moves s (s.completeByStopSequence requestId keepTokens).2 := by
  rw [completeByStopSequence]
  split
  · exact (truncateActive_moves s _ keepTokens).trans (completeSequence_moves _ _)
  · exact .refl

theorem failPendingRequests_moves (s : Scheduler) (reason : String) :
    Moves s (s.failPendingRequests reason).2 := by
  rw [failPendingRequests]
  dsimp only
  generalize hq : s.pendingQueue = queue
  induction queue generalizing s with
  | nil =>
      have hs : ({ s with pendingQueue := [], completedRequests := s.completedRequests } : Scheduler)
          = s := by rw [← hq]
      simpa [hs] using ReflTransGen.refl
  | cons p queue ih =>
      let reason' := s!"{reason}（request {p.request.id}）"
      have hmove : Move s { s with
          pendingQueue := queue
          completedRequests := s.completedRequests ++ [(p.seqId, p.request.fail reason')] } :=
        .reject reason' (hq ▸ .refl _)
      have hrest := ih { s with
        pendingQueue := queue
        completedRequests := s.completedRequests ++ [(p.seqId, p.request.fail reason')] } rfl
      simpa [reason', List.append_assoc] using ReflTransGen.head hmove hrest

/-! ## The update -/

theorem transitionPrefillToDecode_moves (s : Scheduler) (id : SeqId) :
    Moves s (s.transitionPrefillToDecode id) := by
  rw [transitionPrefillToDecode]
  split
  next => exact .refl
  next seq h => exact .single (.toDecode h)

theorem updateRow_moves (outputs : ExecutionOutput) (eosTokenId : TokenId) (st : UpdateState)
    (index : Nat) (id : SeqId) :
    Moves st.scheduler (updateRow outputs eosTokenId st index id).scheduler := by
  rw [updateRow]
  split
  next => exact .refl
  next token _ =>
    have htransition := transitionPrefillToDecode_moves st.scheduler id
    dsimp only
    split
    next seq h =>
      have hedit := htransition.tail
        (.editDecode h (seq.appendToken_samePlace token outputs.logprobs[index]?))
      split <;> exact hedit
    next => exact htransition

theorem updateRows_moves (outputs : ExecutionOutput) (eosTokenId : TokenId) (ids : List SeqId)
    (index : Nat) (st : UpdateState) :
    Moves st.scheduler (updateRows outputs eosTokenId index ids st).scheduler := by
  induction ids generalizing index st with
  | nil => exact .refl
  | cons id rest ih => exact (updateRow_moves outputs eosTokenId st index id).trans (ih _ _)

theorem failAll_moves (s : Scheduler) (failures : List (SeqId × String)) :
    Moves s (s.failAll failures) := by
  induction failures generalizing s with
  | nil => exact .refl
  | cons f rest ih => exact (failSequence_moves s f.1 f.2).trans (ih _)

theorem completeAll_moves (s : Scheduler) (ids : List SeqId) : Moves s (s.completeAll ids) := by
  induction ids generalizing s with
  | nil => exact .refl
  | cons id rest ih => exact (completeSequence_moves s id).trans (ih _)

theorem updateSequences_moves (s : Scheduler) (outputs : ExecutionOutput) (eosTokenId : TokenId) :
    Moves s (s.updateSequences outputs eosTokenId) :=
  ((updateRows_moves outputs eosTokenId outputs.seqIds 0 { scheduler := s }).trans
    (failAll_moves _ _)).trans (completeAll_moves _ _)

end Scheduler

end PagedServing
