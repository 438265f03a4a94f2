import PagedServing.Scheduler.Operations

/-! # Histories of a scheduler

A history is a scheduler with two ghosts: the ids `add_request` has returned and
the terminal requests that have been taken out of the completed buffer.
-/

namespace PagedServing

open Relation FixedWidth

/-- The public operations that change a scheduler, with their arguments. -/
inductive SchedulerOp where
  | addRequest (id : RequestId) (inputTokens : List TokenId) (params : GenerationParams)
  | schedule
  | updateSequences (outputs : ExecutionOutput) (eosTokenId : TokenId)
  | cancelByRequestId (requestId : RequestId)
  | failByRequestId (requestId : RequestId) (reason : String)
  | failSequences (seqIds : List SeqId) (reason : String)
  | completeByStopSequence (requestId : RequestId) (keepTokens : Nat)
  | failPendingRequests (reason : String)
  | takeCompletedWithSeqIds
  | getCompleted

structure History where
  scheduler : Scheduler
  issued : List SeqId
  drained : List (SeqId × Request)

namespace History

def new (config : EngineConfig) : History := ⟨Scheduler.new config, [], []⟩

/-- An operation that neither issues nor drains. -/
def withScheduler (h : History) (s : Scheduler) : History := { h with scheduler := s }

def addRequest (h : History) (request : Request) : History :=
  match h.scheduler.addRequest request with
  | (.ok seqId, s) => { h with scheduler := s, issued := h.issued ++ [seqId] }
  | (.error _, s) => { h with scheduler := s }

def drain (h : History) : History :=
  { h with
    scheduler := h.scheduler.takeCompletedWithSeqIds.2
    drained := h.drained ++ h.scheduler.takeCompletedWithSeqIds.1 }

def apply (h : History) : SchedulerOp → History
  | .addRequest id inputTokens params => h.addRequest (Request.new id inputTokens params)
  | .schedule => h.withScheduler h.scheduler.schedule.2
  | .updateSequences outputs eosTokenId =>
      h.withScheduler (h.scheduler.updateSequences outputs eosTokenId)
  | .cancelByRequestId requestId => h.withScheduler (h.scheduler.cancelByRequestId requestId).2
  | .failByRequestId requestId reason =>
      h.withScheduler (h.scheduler.failByRequestId requestId reason).2
  | .failSequences seqIds reason => h.withScheduler (h.scheduler.failSequences seqIds reason)
  | .completeByStopSequence requestId keepTokens =>
      h.withScheduler (h.scheduler.completeByStopSequence requestId keepTokens).2
  | .failPendingRequests reason => h.withScheduler (h.scheduler.failPendingRequests reason).2
  | .takeCompletedWithSeqIds => h.drain
  | .getCompleted => h.drain -- the same requests leave, without their ids

def run (h : History) (ops : List SchedulerOp) : History := ops.foldl apply h

/-- Everything that has become terminal, oldest first. -/
def ended (h : History) : List (SeqId × Request) := h.drained ++ h.scheduler.completedRequests

/-! ## The invariant -/

/-- Where the issued ids are, and what the places promise. -/
structure Inv (h : History) : Prop where
  wf : h.scheduler.Wf
  places : (h.scheduler.ids ++ h.drained.map (·.1)).Perm h.issued
  issued : h.issued = List.range' 1 (h.scheduler.nextSeqId - 1)
  nextSeqId_pos : 1 ≤ h.scheduler.nextSeqId
  drained_tag : ∀ r ∈ h.drained, r.2.state.IsTerminal
  unfinished : h.scheduler.numUnfinished ≤ h.scheduler.config.maxNumSeqs.toNat

theorem inv_new (config : EngineConfig) : (new config).Inv where
  wf := Scheduler.wf_new config
  places := by simp [new, Scheduler.ids, Scheduler.new]
  issued := by simp [new, Scheduler.new]
  nextSeqId_pos := by simp [new, Scheduler.new]
  drained_tag := by simp [new]
  unfinished := by
    have : (∅ : IdMap Sequence).size = 0 := IdMap.size_eq_zero_iff.2 rfl
    simp [new, Scheduler.new, Scheduler.numUnfinished, Scheduler.numActiveSequences]

variable {h : History} {s : Scheduler}

theorem Inv.moves (hi : h.Inv) (hm : h.scheduler.Moves s) : (h.withScheduler s).Inv := by
  have he := Scheduler.Moves.evolves hi.wf hm
  refine ⟨he.wf, (he.ids.append_right _).trans hi.places, ?_, ?_, hi.drained_tag, ?_⟩
  · rw [withScheduler, he.nextSeqId]
    exact hi.issued
  · rw [withScheduler, he.nextSeqId]
    exact hi.nextSeqId_pos
  · rw [withScheduler, he.config]
    exact he.unfinished.trans hi.unfinished

end History

namespace Scheduler

variable {s : Scheduler} {r : Request}

/-- The state after an accepted request. -/
def enqueue (s : Scheduler) (r : Request) : Scheduler :=
  { s.updateMemoryPressure with
    nextSeqId := s.nextSeqId + 1
    pendingQueue := s.pendingQueue ++ [⟨s.nextSeqId, r⟩] }

/-- A request is queued under the next id, or turned away with nothing changed but
the memory pressure flag. -/
theorem addRequest_cases (s : Scheduler) (r : Request) :
    (s.numUnfinished < s.config.maxNumSeqs.toNat ∧
      s.addRequest r = (.ok s.nextSeqId, s.enqueue r)) ∨
      ∃ e, s.addRequest r = (.error e, s.updateMemoryPressure) := by
  rw [addRequest]
  split_ifs with hpressure hmax
  · exact .inr ⟨_, rfl⟩
  · exact .inr ⟨_, rfl⟩
  · exact .inl ⟨Nat.lt_of_not_le hmax, rfl⟩

theorem ids_enqueue_perm (s : Scheduler) (r : Request) :
    (s.enqueue r).ids.Perm (s.nextSeqId :: s.ids) := by
  rw [List.perm_iff_count]
  intro a
  simp only [ids, enqueue, updateMemoryPressure, List.map_append, List.map_cons, List.map_nil,
    List.count_append, List.count_cons, List.count_nil]
  omega

theorem Wf.enqueue (hw : s.Wf) (hr : r.state = .pending) : (s.enqueue r).Wf := by
  have hnew : s.nextSeqId ∉ s.ids := fun hmem => Nat.lt_irrefl _ (hw.ids_lt _ hmem)
  refine ⟨?_, ?_, ?_, hw.prefill_tag, hw.decode_tag, hw.completed_tag, hw.kvCache, hw.poolSize,
    hw.blockSize, hw.tables⟩
  · exact (ids_enqueue_perm s r).nodup_iff.2 (List.nodup_cons.2 ⟨hnew, hw.ids_nodup⟩)
  · intro id hid
    rcases List.mem_cons.1 ((ids_enqueue_perm s r).mem_iff.1 hid) with rfl | hid
    · exact Nat.lt_succ_self _
    · exact Nat.lt_succ_of_lt (hw.ids_lt id hid)
  · intro p hp
    rcases List.mem_append.1 hp with hp | hp
    · exact hw.pending_tag p hp
    · rw [List.mem_singleton.1 hp]
      exact hr

/-- Taking the terminal requests out. -/
theorem Wf.drain (hw : s.Wf) : s.takeCompletedWithSeqIds.2.Wf := by
  have hsub : s.takeCompletedWithSeqIds.2.ids.Sublist s.ids := by
    simp [takeCompletedWithSeqIds, ids]
  exact ⟨hw.ids_nodup.sublist hsub, fun id hid => hw.ids_lt id (hsub.subset hid), hw.pending_tag,
    hw.prefill_tag, hw.decode_tag, by simp [takeCompletedWithSeqIds], hw.kvCache, hw.poolSize,
    hw.blockSize, hw.tables⟩

end Scheduler

namespace History

variable {h : History}

theorem Inv.addRequest (hi : h.Inv) {r : Request} (hr : r.state = .pending) :
    (h.addRequest r).Inv := by
  rw [History.addRequest]
  rcases Scheduler.addRequest_cases h.scheduler r with ⟨hmax, heq⟩ | ⟨e, heq⟩
  · rw [heq]
    refine ⟨hi.wf.enqueue hr, ?_, ?_, Nat.le_add_left _ _, hi.drained_tag, ?_⟩
    · have hids := (Scheduler.ids_enqueue_perm h.scheduler r).append_right (h.drained.map (·.1))
      refine hids.trans ?_
      rw [List.cons_append]
      exact (hi.places.cons _).trans (List.perm_append_singleton _ _).symm
    · obtain ⟨n, hn⟩ : ∃ n, h.scheduler.nextSeqId = n + 1 :=
        ⟨_, (Nat.sub_add_cancel hi.nextSeqId_pos).symm⟩
      simp [hi.issued, Scheduler.enqueue, hn, List.range'_1_concat, Nat.add_comm]
    · simp only [Scheduler.numUnfinished, Scheduler.numActiveSequences, Scheduler.enqueue,
        Scheduler.updateMemoryPressure, List.length_append, List.length_singleton] at hmax ⊢
      omega
  · rw [heq]
    exact hi.moves (.single (.pressure _ _))

theorem Inv.drain (hi : h.Inv) : h.drain.Inv := by
  refine ⟨hi.wf.drain, ?_, hi.issued, hi.nextSeqId_pos, ?_, hi.unfinished⟩
  · refine .trans ?_ hi.places
    rw [List.perm_iff_count]
    intro a
    simp only [History.drain, Scheduler.takeCompletedWithSeqIds, Scheduler.ids, List.map_append,
      List.map_nil, List.count_append, List.count_nil]
    omega
  · intro r hr
    rcases List.mem_append.1 hr with hr | hr
    · exact hi.drained_tag r hr
    · exact hi.wf.completed_tag r hr

/-- An operation adds a request, drains the buffer, or is a run of moves. -/
theorem apply_cases (hi : h.Inv) (op : SchedulerOp) :
    (∃ r : Request, r.state = .pending ∧ h.apply op = h.addRequest r) ∨ h.apply op = h.drain ∨
      ∃ s, h.scheduler.Moves s ∧ h.apply op = h.withScheduler s := by
  cases op with
  | addRequest id inputTokens params => exact .inl ⟨_, rfl, rfl⟩
  | schedule => exact .inr (.inr ⟨_, Scheduler.schedule_moves hi.wf, rfl⟩)
  | updateSequences outputs eos =>
      exact .inr (.inr ⟨_, Scheduler.updateSequences_moves _ outputs eos, rfl⟩)
  | cancelByRequestId id => exact .inr (.inr ⟨_, Scheduler.failByRequestId_moves _ id _, rfl⟩)
  | failByRequestId id reason =>
      exact .inr (.inr ⟨_, Scheduler.failByRequestId_moves _ id reason, rfl⟩)
  | failSequences ids reason =>
      exact .inr (.inr ⟨_, Scheduler.failSequences_moves _ ids reason, rfl⟩)
  | completeByStopSequence id keep =>
      exact .inr (.inr ⟨_, Scheduler.completeByStopSequence_moves _ id keep, rfl⟩)
  | failPendingRequests reason =>
      exact .inr (.inr ⟨_, Scheduler.failPendingRequests_moves _ reason, rfl⟩)
  | takeCompletedWithSeqIds => exact .inr (.inl rfl)
  | getCompleted => exact .inr (.inl rfl)

theorem Inv.apply (hi : h.Inv) (op : SchedulerOp) : (h.apply op).Inv := by
  rcases apply_cases hi op with ⟨r, hr, heq⟩ | heq | ⟨s, hm, heq⟩
  · exact heq ▸ hi.addRequest hr
  · exact heq ▸ hi.drain
  · exact heq ▸ hi.moves hm

theorem Inv.run (hi : h.Inv) (ops : List SchedulerOp) : (h.run ops).Inv := by
  induction ops generalizing h with
  | nil => exact hi
  | cons op ops ih => exact ih (hi.apply op)

theorem config_apply (hi : h.Inv) (op : SchedulerOp) :
    (h.apply op).scheduler.config = h.scheduler.config := by
  rcases apply_cases hi op with ⟨r, -, heq⟩ | heq | ⟨s, hm, heq⟩
  · rw [heq, History.addRequest]
    rcases Scheduler.addRequest_cases h.scheduler r with ⟨-, heq⟩ | ⟨e, heq⟩ <;>
      · rw [heq]
        rfl
  · rw [heq]
    rfl
  · rw [heq]
    exact (Scheduler.Moves.evolves hi.wf hm).config

theorem config_run (hi : h.Inv) (ops : List SchedulerOp) :
    (h.run ops).scheduler.config = h.scheduler.config := by
  induction ops generalizing h with
  | nil => rfl
  | cons op ops ih => exact (ih (hi.apply op)).trans (config_apply hi op)

theorem ended_prefix_apply (hi : h.Inv) (op : SchedulerOp) : h.ended <+: (h.apply op).ended := by
  rcases apply_cases hi op with ⟨r, -, heq⟩ | heq | ⟨s, hm, heq⟩
  · rw [heq, History.addRequest]
    rcases Scheduler.addRequest_cases h.scheduler r with ⟨-, heq⟩ | ⟨e, heq⟩ <;>
      · rw [heq]
        exact List.prefix_refl _
  · rw [heq]
    simp [ended, History.drain, Scheduler.takeCompletedWithSeqIds]
  · rw [heq]
    exact (List.prefix_append_right_inj _).2 (Scheduler.Moves.evolves hi.wf hm).completed

/-- What has ended stays as it is, whatever comes after. -/
theorem ended_prefix_run (hi : h.Inv) (ops : List SchedulerOp) : h.ended <+: (h.run ops).ended := by
  induction ops generalizing h with
  | nil => exact List.prefix_refl _
  | cons op ops ih => exact (ended_prefix_apply hi op).trans (ih (hi.apply op))

end History

end PagedServing
